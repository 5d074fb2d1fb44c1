import TimedTasks.Proofs.Pairing
import TimedTasks.Proofs.Quieter
/-!
What the tasks of a run name. Whatever a task names was named by a body that somebody handed in, so
what none of them names is never named by any task. Parked threads, like names, stand for cells that
there are.
-/

namespace TimedTasks

open World

variable {V : Type} {P : Mention → Prop}

/-! ## What is named -/

/-- What the bodies in a call name, the call itself apart. -/
def Call.mentionsWithin : Call V → List Mention
  | .execute _ _ body | .submit _ _ _ body | .schedule _ _ _ body => body.mentions
  | .repeating _ _ _ _ runs => Body.mentionsOf runs
  | .invokeAll _ _ bodies _ | .invokeAny _ _ bodies _ => Body.mentionsOf bodies
  | _ => []

/-- What the bodies in a step from outside name. -/
def ScenarioStep.mentionsWithin : ScenarioStep V → List Mention
  | .call c => c.mentionsWithin
  | _ => []

theorem Call.mem_mentions_of_within {c : Call V} {m : Mention} (h : m ∈ c.mentionsWithin) :
    m ∈ c.mentions := by
  cases c <;> first | cases h | simp_all [Call.mentionsWithin, Call.mentions]

def Request.mentions : Request V → List Mention
  | .invokeAll _ bodies _ | .invokeAny _ bodies _ => Body.mentionsOf bodies
  | _ => []

/-- What a run has left to do after a piece names only such things. -/
def Progress.Says (P : Mention → Prop) : Progress V → Prop
  | .suspended _ rest => ∀ m ∈ Step.mentionsOf rest, P m
  | .ended _ => True

namespace World

/-- What tasks have to say names only such things, and parked threads wait for cells that there
are. -/
structure Speaks (P : Mention → Prop) (w : World V) : Prop where
  works : ∀ child ∈ w.children, ∀ m ∈ child.work.mentions, P m
  rests : ∀ child ∈ w.children, ∀ on rest, child.stage = .suspended on rest →
    ∀ m ∈ Step.mentionsOf rest, P m
  requests : ∀ x ∈ w.waiters, ∀ m ∈ x.request.mentions, P m
  threads : ∀ p ∈ w.threadNames, p.2 < w.cells.length

/-- So it is in the middle of a turn, with the names of futures. -/
structure Talks (P : Mention → Prop) (w : World V) : Prop extends Speaks P w where
  futures : ∀ p ∈ w.futureNames, p.2.cell < w.cells.length

variable {w w' w'' : World V} {i j : Nat}

/-! ## Calls -/

theorem Speaks.quieter (h : w.Speaks P) (hq : Quieter w w') : w'.Speaks P where
  works x' hx := by
    obtain ⟨x, hx, hwork, -⟩ := hq.children x' hx
    exact hwork ▸ h.works x hx
  rests x' hx on rest hs := by
    obtain ⟨x, hx, -, hrest⟩ := hq.children x' hx
    exact h.rests x hx on rest (hrest on rest hs)
  requests x' hx := by
    obtain ⟨x, hx, hreq⟩ := hq.waiters x' hx
    exact hreq ▸ h.requests x hx
  threads p hp := Nat.lt_of_lt_of_le (h.threads p (hq.threads ▸ hp)) hq.cells

theorem Speaks.addChild (h : w.Speaks P) {work : Work V} (hm : ∀ m ∈ work.mentions, P m) (e : Nat)
    (name : String) (mark : Option Mark) : (w.addChild e name work mark).1.Speaks P where
  works x hx := by
    rcases List.mem_append.mp hx with hx | hx
    · exact h.works x hx
    · obtain rfl := List.mem_singleton.mp hx
      exact hm
  rests x hx on rest hs := by
    rcases List.mem_append.mp hx with hx | hx
    · exact h.rests x hx on rest hs
    · obtain rfl := List.mem_singleton.mp hx
      cases hs
  requests := h.requests
  threads p hp := Nat.lt_of_lt_of_le (h.threads p hp) (by simp [World.addChild, World.enqueue,
    modifyExecutor, addCell])

namespace Talks

variable {e : Nat} {name : String}

theorem quieter (h : w.Talks P) (hq : Quieter w w') : w'.Talks P where
  toSpeaks := h.toSpeaks.quieter hq
  futures p hp := Nat.lt_of_lt_of_le (h.futures p (hq.futures ▸ hp)) hq.cells

theorem note (h : w.Talks P) (who : String) (event : Event V) : (w.note who event).Talks P :=
  h.quieter (.of_eq rfl rfl rfl rfl rfl)

theorem record (h : w.Talks P) (k : Happening V) : (w.record k).Talks P :=
  h.quieter (.of_eq rfl rfl rfl rfl rfl)

theorem report (h : w.Talks P) (n : Notice) : (w.report n).Talks P :=
  h.quieter (.of_eq rfl rfl rfl rfl rfl)

theorem addChild (h : w.Talks P) {work : Work V} (hm : ∀ m ∈ work.mentions, P m) (e : Nat)
    (name : String) (mark : Option Mark) : (w.addChild e name work mark).1.Talks P where
  toSpeaks := h.toSpeaks.addChild hm e name mark
  futures p hp := Nat.lt_of_lt_of_le (h.futures p hp) (by simp [World.addChild, World.enqueue,
    modifyExecutor, addCell])

theorem enrol (h : w.Talks P) (work : Work V) (hm : ∀ m ∈ work.mentions, P m) (e : Nat)
    (name : String) (mark : Option Mark) : (w.enrol e name work mark).1.Talks P := by
  unfold World.enrol
  split
  · exact h.addChild hm e name mark
  · exact h.quieter (.of_eq rfl rfl rfl rfl rfl)

theorem nameFuture (h : w.Talks P) (name : String) {handle : Handle}
    (hc : handle.cell < w.cells.length) : (w.nameFuture name handle).Talks P where
  toSpeaks := { h.toSpeaks with }
  futures p hp := by
    rcases Names.mem_put hp with hp | rfl
    · exact h.futures p hp
    · exact hc

theorem accepted {r : World V × Except TaskError Nat} (h : r.1.Talks P)
    (hc : ∀ c, r.2 = .ok c → c < r.1.cells.length) (name : String) (kind : HandleKind) :
    (accepted name kind r).1.Talks P := by
  obtain ⟨w', a⟩ := r
  cases a with
  | ok c => exact h.nameFuture name (hc c rfl)
  | error err => exact h

theorem onExecutor (h : w.Talks P) {g : Nat → World V × Answer V} (hg : ∀ e, (g e).1.Talks P) :
    (w.onExecutor name g).1.Talks P := by
  unfold World.onExecutor
  split
  · exact hg _
  · exact h

theorem onFuture (h : w.Talks P) {g : Handle → World V × Answer V}
    (hg : ∀ handle : Handle, handle.cell < w.cells.length → (g handle).1.Talks P) :
    (w.onFuture name g).1.Talks P := by
  unfold World.onFuture World.future
  cases hn : w.futureNames.get? name with
  | none => exact h
  | some handle => exact hg handle (h.futures _ (Names.mem_of_get? hn))

theorem addWaiter (h : w.Talks P) (request : Request V) (hm : ∀ m ∈ request.mentions, P m)
    (name : String) : (w.addWaiter name request).Talks P := by
  refine { h with requests := fun x hx => ?_ }
  rcases List.mem_append.mp hx with hx | hx
  · exact h.requests x hx
  · obtain rfl := List.mem_singleton.mp hx
    exact hm

theorem create (h : w.Talks P) (name : String) (document override : Option String)
    (keepPeriodic keepDelayed : Option Bool) :
    (w.create name document override keepPeriodic keepDelayed).1.Talks P := by
  unfold World.create
  split
  · exact h
  · exact h.quieter (.of_eq rfl rfl rfl rfl rfl)

theorem answer (h : w.Talks P) {α : Type} {g : α → Answer V} {r : Except Panic α} :
    (w.answer g r).1.Talks P := by
  cases r <;> exact h

theorem abort (h : w.Talks P) (name : String) : (w.abort name).1.Talks P := by
  unfold World.abort
  split
  · exact h
  · rename_i j _
    exact (h.quieter (.modifyWaiter w j .ended)).quieter (.of_eq rfl rfl rfl rfl rfl)

theorem blockingGet (h : w.Talks P) (thread : String) {c : Nat} (hc : c < w.cells.length) :
    (w.blockingGet thread c).1.Talks P := by
  unfold World.blockingGet
  split
  · exact h
  · refine { h with threads := fun p hp => ?_ }
    rcases Names.mem_put hp with hp | rfl
    · exact h.threads p hp
    · exact hc

theorem threadJoin (h : w.Talks P) (thread : String) : (w.threadJoin thread).1.Talks P := by
  unfold World.threadJoin
  split
  · exact h
  · split
    · exact { h with threads := fun p hp => h.threads p (List.mem_filter.mp hp).1 }
    · exact h

theorem schedule (h : w.Talks P) {body : Body V} (hm : ∀ m ∈ body.mentions, P m) (e : Nat)
    (name : String) (delay : Duration) (kind : HandleKind) :
    (World.accepted name kind (w.schedule e name delay body)).1.Talks P := by
  unfold World.schedule
  split
  · exact h
  · exact accepted (h.enrol (.delayed _ body) hm e name _) (fun _ => enrol_ok) name kind

theorem scheduleRepeating (h : w.Talks P) {runs : List (Body V)}
    (hm : ∀ m ∈ Body.mentionsOf runs, P m) (e : Nat) (name : String) (pace : Pace)
    (initial : Duration) (kind : HandleKind) :
    (World.accepted name kind (w.scheduleRepeating e name pace initial runs)).1.Talks P := by
  have h' := h.report (.repeatingCalled (w.nameOf e) initial pace)
  unfold World.scheduleRepeating
  dsimp only
  split
  · exact h'
  · split
    · exact h'
    · exact accepted (h'.enrol (.periodic pace runs) hm e name _) (fun _ => enrol_ok) name
        kind

/-- A call names no more than the bodies in it. -/
theorem perform (h : w.Talks P) {c : Call V} (hm : ∀ m ∈ c.mentionsWithin, P m) :
    (w.perform c).1.Talks P := by
  cases c with
  | create name document override keepPeriodic keepDelayed => exact h.create ..
  | execute e name body =>
    refine h.onExecutor fun e => ?_
    have hdone := h.enrol (.once .unwanted body) hm e name none
    unfold World.submit
    revert hdone
    generalize w.enrol e name (.once .unwanted body) none = r
    obtain ⟨w', a⟩ := r
    cases a <;> exact id
  | submit e name instead body =>
    exact h.onExecutor fun e => accepted (h.enrol (.once _ body) hm e name none)
      (fun _ => enrol_ok) name .plain
  | schedule e name delay body => exact h.onExecutor fun e => h.schedule hm e name delay .delayed
  | repeating e name pace initial runs =>
    exact h.onExecutor fun e => h.scheduleRepeating hm e name pace initial .periodic
  | cancel name interrupt => exact h.onFuture fun handle _ => h.quieter (.cancel ..)
  | share name other => exact h.onFuture fun handle hc => h.nameFuture other hc
  | shareTask name other => exact h.onFuture fun handle hc => h.nameFuture other hc
  | forget name =>
    exact h.onFuture fun _ _ =>
      { h with futures := fun p hp => h.futures p (List.mem_filter.mp hp).1 }
  | inspect name => exact h.onFuture fun _ _ => h
  | delay name unit => cases unit <;> exact h.answer
  | dueTime name => exact h.answer
  | compare a b => exact h.answer
  | compareFixed name amount unit due => exact h.answer
  | sort names => exact h.answer
  | get waiter name bound =>
    exact h.onFuture fun _ _ => h.addWaiter _ (by simp [Request.mentions]) _
  | awaitTermination waiter e bound =>
    exact h.onExecutor fun _ => h.addWaiter _ (by simp [Request.mentions]) _
  | invokeAll waiter e bodies bound =>
    exact h.onExecutor fun e => h.addWaiter (.invokeAll e bodies bound) hm _
  | invokeAny waiter e bodies bound =>
    exact h.onExecutor fun e => h.addWaiter (.invokeAny e bodies bound) hm _
  | abort waiter => exact h.abort waiter
  | blockingGet thread name => exact h.onFuture fun _ hc => h.blockingGet thread hc
  | threadJoin thread => exact h.threadJoin thread
  | shutdown e => exact h.onExecutor fun e => h.quieter (.shutdown w e)
  | shutdownNow e => exact h.onExecutor fun e => h.quieter (.shutdownNow w e)
  | lifecycle e => exact h.onExecutor fun _ => h
  | describe e => exact h.onExecutor fun _ => h
  | stats e => exact h.onExecutor fun _ => h

/-! ## Bodies -/

/-- A state and what a run has left to do there name only such things. -/
def Both (P : Mention → Prop) (r : World V × Progress V) : Prop := r.1.Talks P ∧ r.2.Says P

theorem runSteps (h : w.Talks P) (who : String) {steps : List (Step V)}
    (hm : ∀ m ∈ Step.mentionsOf steps, P m) : Both P (w.runSteps who steps) := by
  induction steps generalizing w with
  | nil => exact ⟨h.note who _, trivial⟩
  | cons s rest ih =>
    have hs : ∀ m ∈ s.mentions, P m := fun m hs => hm m (List.mem_append_left _ hs)
    have hrest : ∀ m ∈ Step.mentionsOf rest, P m := fun m hr => hm m (List.mem_append_right _ hr)
    cases s with
    | sleep d =>
      unfold World.runSteps
      split
      · exact ⟨h, hrest⟩
      · split
        · exact ih (h.note who _) hrest
        · exact ⟨h, hrest⟩
    | act c =>
      have hc := h.perform fun m hc => hs m (Call.mem_mentions_of_within hc)
      exact ih (hc.note who _) hrest
    | get name =>
      unfold World.runSteps
      split
      · exact ⟨h.note who _, trivial⟩
      · split
        · exact ih (h.note who _) hrest
        · exact ⟨h, hrest⟩
    | join name =>
      unfold World.runSteps
      split
      · exact ⟨h.note who _, trivial⟩
      · split
        · exact ih (h.note who _) hrest
        · exact ⟨h.note who _, trivial⟩
        · exact ⟨h, hrest⟩
    | ok value => exact ⟨h.note who _, trivial⟩
    | err cause => exact ⟨h.note who _, trivial⟩
    | panic => exact ⟨h.note who _, trivial⟩
    | pending => exact ⟨h, hrest⟩

theorem resumeSteps (h : w.Talks P) (who : String) (on : Wait) {rest : List (Step V)}
    (hm : ∀ m ∈ Step.mentionsOf rest, P m) : Both P (w.resumeSteps who on rest) := by
  unfold World.resumeSteps
  split
  · exact ⟨h, hm⟩
  · split
    · exact (h.note who _).runSteps who hm
    · exact ⟨h, hm⟩
  · split
    · exact ⟨h, hm⟩
    · exact ⟨h.note who _, trivial⟩
    · exact (h.note who _).runSteps who hm

theorem closeRun {r : World V × Progress V} (h : Both P r) (c : Nat) :
    Both P (r.1.closeRun c r.2) := by
  obtain ⟨w', p⟩ := r
  refine ⟨?_, (closeRun_snd (w := w') c p).symm ▸ h.2⟩
  cases p with
  | suspended on rest => exact h.1
  | ended r =>
    cases r with
    | panicked => exact h.1
    | _ => exact h.1.quieter (.modifyCell ..)

theorem startRun (h : w.Talks P) (c : Nat) (who : String) {body : Body V}
    (hm : ∀ m ∈ body.mentions, P m) : Both P (w.startRun c who body) := by
  have hbegun : ((w.beginRun c).record (.called c)).Talks P :=
    (h.quieter (.modifyCell w c _)).record _
  unfold World.startRun
  split
  · exact ⟨h, trivial⟩
  · split
    · exact ⟨h, trivial⟩
    · dsimp only
      split
      · exact ⟨hbegun, trivial⟩
      · exact closeRun (((hbegun.record _).note who _).runSteps who hm) c

theorem resumeRun (h : w.Talks P) (c : Nat) (who : String) (on : Wait) {rest : List (Step V)}
    (hm : ∀ m ∈ Step.mentionsOf rest, P m) : Both P (w.resumeRun c who on rest) := by
  unfold World.resumeRun
  split
  · exact ⟨(h.note who _).quieter (.modifyCell ..), trivial⟩
  · exact closeRun ((h.record _).resumeSteps who on hm) c

/-! ## The turn of a child -/

variable {child : Child V}

theorem suspendBody (h : w.Talks P) (i : Nat) (on : Wait) {rest : List (Step V)}
    (hm : ∀ m ∈ Step.mentionsOf rest, P m) : (w.parkChild i (.suspended on rest)).Talks P := by
  have hset : (w.setStage i (.suspended on rest)).Talks P := by
    refine { h with works := fun x' hx => ?_, rests := fun x' hx on' rest' hs => ?_ }
    · obtain ⟨k, hk⟩ := List.mem_iff_getElem?.mp hx
      obtain ⟨x, hold, ⟨-, rfl⟩ | ⟨-, rfl⟩⟩ := exists_getElem?_of_modify hk
      · exact h.works x (List.mem_of_getElem? hold)
      · exact h.works _ (List.mem_of_getElem? hold)
    · obtain ⟨k, hk⟩ := List.mem_iff_getElem?.mp hx
      obtain ⟨x, hold, ⟨-, rfl⟩ | ⟨-, rfl⟩⟩ := exists_getElem?_of_modify hk
      · cases hs
        exact hm
      · exact h.rests _ (List.mem_of_getElem? hold) on' rest' hs
  unfold World.parkChild
  dsimp only
  split
  · exact hset
  · split <;> exact hset.quieter (.of_eq rfl rfl rfl rfl rfl)

theorem afterOnce {r : World V × Progress V} (h : Both P r) (i : Nat) (child : Child V) :
    (r.1.afterOnce i child r.2).Talks P := by
  obtain ⟨w', p⟩ := r
  cases p with
  | suspended on rest => exact h.1.suspendBody i on h.2
  | ended r => exact h.1.quieter (.finish ..)

theorem afterFiring {r : World V × Progress V} (h : Both P r) (i : Nat) (child : Child V)
    (pace : Pace) : (r.1.afterFiring i child pace r.2).1.Talks P := by
  obtain ⟨w', p⟩ := r
  obtain ⟨h, hp⟩ := h
  cases p with
  | suspended on rest => exact h.suspendBody i on hp
  | ended r =>
    cases r with
    | returned value =>
      have hended := h.record (.ended child.cell (.returned value))
      simp only [World.afterFiring]
      split
      · exact hended.quieter (.modifyCell ..)
      · split
        · exact hended.quieter (.finish ..)
        · exact hended.quieter (.parkChild _ i (by simp))
    | failed cause => exact (h.report _).quieter (.finish ..)
    | stopped => exact h.quieter (.finish ..)
    | panicked => exact h.quieter (.finish ..)

theorem fire (h : w.Talks P) (i : Nat) (child : Child V) (pace : Pace) {runs : List (Body V)}
    (hm : ∀ m ∈ Body.mentionsOf runs, P m) : Both P (w.fire i child pace runs) := by
  have hcounted : (w.modifyChild i fun x => { x with runs := x.runs + 1 }).Talks P :=
    h.quieter (.modifyChild w i (fun _ => rfl) fun _ _ _ => id)
  exact (hcounted.report _).startRun _ _ fun m hb => hm m (mem_mentionsOf_of_bodyForRun hb)

theorem periodicRounds (h : w.Talks P) (i : Nat) (child : Child V) (pace : Pace)
    {runs : List (Body V)} (hm : ∀ m ∈ Body.mentionsOf runs, P m) (rounds : Nat) :
    (w.periodicRounds i child pace runs rounds).Talks P := by
  induction rounds generalizing w with
  | zero => exact h.quieter ((Quieter.setStage w i (by simp)).trans (.of_eq rfl rfl rfl rfl rfl))
  | succ n ih =>
    simp only [World.periodicRounds]
    split
    · exact h.quieter (.finish ..)
    · split
      · exact h.quieter (.parkChild _ i (by simp))
      · have hfired := afterFiring (h.fire i child pace hm) i child pace
        revert hfired
        generalize (w.fire i child pace runs).1.afterFiring i child pace
          (w.fire i child pace runs).2 = r
        obtain ⟨w', after⟩ := r
        intro hfired
        cases after with
        | settled => exact hfired
        | again => exact ih hfired

theorem delayedTurn (h : w.Talks P) (i : Nat) (child : Child V) (due : Instant) {body : Body V}
    (hm : ∀ m ∈ body.mentions, P m) : (w.delayedTurn i child due body).Talks P := by
  unfold World.delayedTurn
  split
  · exact h.quieter (.finish ..)
  · split
    · exact h.quieter (.parkChild _ i (by simp))
    · split
      · exact h.quieter (.finish ..)
      · exact afterOnce (h.startRun _ _ hm) i child

theorem firstTurn (h : w.Talks P) (i : Nat) {child : Child V}
    (hm : ∀ m ∈ child.work.mentions, P m) : (w.firstTurn i child).Talks P := by
  have h' := h.report (.childStarted (w.nameOf child.executor) child.id child.work.kind)
  unfold World.firstTurn
  cases hw : child.work with
  | periodic pace runs =>
    rw [hw] at hm h'
    exact h'.periodicRounds i child pace hm turnRounds
  | delayed due body =>
    rw [hw] at hm h'
    exact h'.delayedTurn i child due hm
  | _ =>
    rw [hw] at hm h'
    exact afterOnce (h'.startRun _ _ hm) i child

theorem suspendedTurn (h : w.Talks P) (i : Nat) {child : Child V} (on : Wait)
    {rest : List (Step V)} (hm : ∀ m ∈ child.work.mentions, P m)
    (hr : ∀ m ∈ Step.mentionsOf rest, P m) : (w.suspendedTurn i child on rest).Talks P := by
  have hresumed := h.resumeRun child.cell child.name on hr
  unfold World.suspendedTurn closeTurn
  dsimp only
  split
  · rename_i pace runs hw
    have hfired := afterFiring hresumed i child pace
    revert hfired
    generalize (w.resumeRun child.cell child.name on rest).1.afterFiring i child pace
      (w.resumeRun child.cell child.name on rest).2 = r
    obtain ⟨w', after⟩ := r
    intro hfired
    cases after with
    | settled => exact hfired
    | again =>
      rw [hw] at hm
      exact hfired.periodicRounds i child pace hm turnRounds
  · exact afterOnce hresumed i child

theorem childTurn (h : w.Talks P) (i : Nat) : (w.childTurn i).Talks P := by
  unfold World.childTurn
  split
  · exact h
  · rename_i child hc
    have hm := h.works child (List.mem_of_getElem? hc)
    have hr := h.rests child (List.mem_of_getElem? hc)
    split
    · exact h.firstTurn i hm
    · rename_i due body hs hw
      rw [hw] at hm
      exact h.delayedTurn i child _ hm
    · rename_i due pace runs hs hw
      rw [hw] at hm
      unfold World.periodicTurn
      split
      · exact h.quieter (.finish ..)
      · split
        · exact h.quieter (.parkChild _ i (by simp))
        · exact h.periodicRounds i child pace hm turnRounds
    · exact h
    · rename_i on rest hs
      exact h.suspendedTurn i on hm (hr on rest hs)
    · split
      · exact h.quieter (.finish ..)
      · exact h.quieter (.parkChild _ i (by simp))
    · exact h

end Talks

/-! ## The turn of a waiter -/

namespace Speaks

variable {x : Waiter V} {e : Nat}

theorem finishWaiter (h : w.Speaks P) (j : Nat) (name : String) (a : Answer V) :
    (w.finishWaiter j name a).Speaks P :=
  (h.quieter (.modifyWaiter w j .ended)).quieter (.of_eq rfl rfl rfl rfl rfl)

theorem nameBatch (h : w.Speaks P) (name : String) (n : Nat) (cells : List Nat) :
    (w.nameBatch name n cells).Speaks P := by
  induction cells generalizing w n with
  | nil => exact h
  | cons c cells ih =>
    have hnamed : (w.nameFuture (name ++ "." ++ toString n) ⟨c, .plain⟩).Speaks P := { h with }
    exact ih hnamed (n + 1)

theorem answerAll (h : w.Speaks P) (j : Nat) (name : String) (cells : List Nat) :
    (w.answerAll j name cells).Speaks P := (h.nameBatch name 0 cells).finishWaiter j name _

theorem conclude (h : w.Speaks P) (j : Nat) (x : Waiter V) (on : Awaited) (inTime : Bool) :
    (w.conclude j x on inTime).Speaks P := by
  have hcancelled (cells : List Nat) : (w.cancelAll cells).1.Speaks P := h.quieter (.cancelAll ..)
  have hreported (cells : List Nat) (n : Notice) : ((w.cancelAll cells).1.report n).Speaks P :=
    (hcancelled cells).quieter (.of_eq rfl rfl rfl rfl rfl)
  unfold World.conclude
  split
  · split <;> exact h.finishWaiter ..
  · exact h.finishWaiter ..
  · split
    · exact h
    · rename_i batch _
      split
      · exact h.answerAll ..
      · exact (hreported batch.cells _).answerAll ..
  · split
    · exact h
    · rename_i batch _
      dsimp only
      split
      · exact (hreported batch.cells _).finishWaiter ..
      · exact (hcancelled batch.cells).finishWaiter ..
  · exact h

theorem checkWaiter (h : w.Speaks P) (j : Nat) (x : Waiter V) (on : Awaited)
    (deadline : Option Instant) : (w.checkWaiter j x on deadline).Speaks P := by
  have hwaits : ((w.modifyWaiter j fun y => { y with stage := .waiting on deadline }).suspend
      (.waiter j)).Speaks P :=
    (h.quieter (.modifyWaiter w j (.waiting on deadline))).quieter (.of_eq rfl rfl rfl rfl rfl)
  unfold World.checkWaiter
  split
  · exact h.conclude ..
  · cases deadline with
    | none => exact hwaits
    | some t =>
      dsimp only
      split
      · exact h.conclude ..
      · exact hwaits

theorem addBatchChildren (h : w.Speaks P) {work : Body V → Work V}
    (hwork : ∀ body, (work body).mentions = body.mentions) {bodies : List (Body V)}
    (hm : ∀ m ∈ Body.mentionsOf bodies, P m) (e : Nat) (name : String) (n : Nat) :
    (w.addBatchChildren e name work n bodies).1.Speaks P := by
  induction bodies generalizing w n with
  | nil => exact h
  | cons body bodies ih =>
    refine ih (h.addChild (fun m hb => ?_) ..)
      (fun m hb => hm m (List.mem_append_right _ hb)) (n + 1)
    exact hm m (List.mem_append_left _ (hwork body ▸ hb))

theorem startBatch (h : w.Speaks P) {work : Nat → Body V → Work V}
    (hwork : ∀ b body, (work b body).mentions = body.mentions) {bodies : List (Body V)}
    (hm : ∀ m ∈ Body.mentionsOf bodies, P m) (j : Nat) (x : Waiter V) (e : Nat)
    (bound : Option Duration) : (w.startBatch j x e work bodies bound).Speaks P := by
  have hopened : (w.openBatch e x.name work bodies).Speaks P :=
    (h.addBatchChildren (hwork w.batches.length) hm e x.name 0).quieter (.of_eq rfl rfl rfl rfl rfl)
  exact hopened.checkWaiter ..

theorem rejected (h : w.Speaks P) (j : Nat) (name : String) (a : Answer V) (e : Nat) :
    ((w.reject e).1.finishWaiter j name a).Speaks P := by
  have h' : (w.reject e).1.Speaks P := h.quieter (.of_eq rfl rfl rfl rfl rfl)
  exact h'.finishWaiter j name a

theorem beginAll (h : w.Speaks P) (j : Nat) (x : Waiter V) (e : Nat) {bodies : List (Body V)}
    (hm : ∀ m ∈ Body.mentionsOf bodies, P m) (bound : Option Duration) :
    (w.beginAll j x e bodies bound).Speaks P := by
  have h' : (w.report (.invokeAllCalled (w.nameOf e) bodies.length bound)).Speaks P :=
    h.quieter (.of_eq rfl rfl rfl rfl rfl)
  unfold World.beginAll
  dsimp only
  split
  · exact h'.rejected ..
  · split
    · refine answerAll ?_ ..
      rw [addCancelledCells_cells]
      exact { h' with
        threads := fun p hp => Nat.lt_of_lt_of_le (h'.threads p hp) (by simp [World.report]) }
    · split
      · exact h'.answerAll ..
      · exact h'.startBatch (fun _ _ => rfl) hm j x e bound

theorem beginAny (h : w.Speaks P) (j : Nat) (x : Waiter V) (e : Nat) {bodies : List (Body V)}
    (hm : ∀ m ∈ Body.mentionsOf bodies, P m) (bound : Option Duration) :
    (w.beginAny j x e bodies bound).Speaks P := by
  have h' : (w.report (.invokeAnyCalled (w.nameOf e) bodies.length bound)).Speaks P :=
    h.quieter (.of_eq rfl rfl rfl rfl rfl)
  unfold World.beginAny
  dsimp only
  split
  · exact h'.finishWaiter ..
  · split
    · exact h'.rejected ..
    · split
      · exact h'.finishWaiter ..
      · exact h'.startBatch (fun _ _ => rfl) hm j x e bound

theorem waiterTurn (h : w.Speaks P) (j : Nat) : (w.waiterTurn j).Speaks P := by
  unfold World.waiterTurn
  split
  · exact h
  · rename_i x hx
    have hm := h.requests x (List.mem_of_getElem? hx)
    split
    · unfold World.beginWaiter
      cases hq : x.request with
      | get c bound => exact h.checkWaiter ..
      | termination e bound =>
        have h' : (w.report (.awaitTerminationCalled (w.nameOf e) bound)).Speaks P :=
          h.quieter (.of_eq rfl rfl rfl rfl rfl)
        exact h'.checkWaiter ..
      | invokeAll e bodies bound =>
        rw [hq] at hm
        exact h.beginAll j x e hm bound
      | invokeAny e bodies bound =>
        rw [hq] at hm
        exact h.beginAny j x e hm bound
    · exact h.checkWaiter ..
    · exact h

/-! ## Runs -/

theorem turn (h : w.Speaks P) (hr : Reached (.caller none) w) : w.turn.Speaks P := by
  unfold World.turn
  split
  · exact h
  · rename_i r rest hready
    have hr' := hr.op (.take hready)
    have h' : { w with ready := rest }.Speaks P := { h with }
    cases r with
    | child i => exact (Talks.childTurn ⟨h', hr'.sound.futures⟩ i).toSpeaks
    | waiter j => exact h'.waiterTurn j
    | watcher e =>
      show ({ w with ready := rest }.watcherTurn e).Speaks P
      unfold World.watcherTurn
      split <;> exact h'.quieter (.of_eq rfl rfl rfl rfl rfl)

theorem turns (h : w.Speaks P) (hr : Reached (.caller none) w) (n : Nat) :
    (w.turns n).Speaks P := by
  induction n generalizing w with
  | zero => exact h
  | succ n ih =>
    unfold World.turns
    split
    · exact h
    · exact ih (h.turn hr) (turn_leads.reached hr)

theorem moved (h : w.Speaks P) (hr : Reached (.caller none) w) {t : Duration}
    (ht : w.clock.elapsed ≤ t) : (w.moveTo t).quiesce.Speaks P := by
  have h' : (w.moveTo t).Speaks P := h.quieter (.of_eq rfl rfl rfl rfl rfl)
  exact h'.turns (hr.op (.clock ht)) _

theorem passTo (h : w.Speaks P) (hr : Reached (.caller none) w) {target : Duration}
    (ht : w.clock.elapsed ≤ target) (n : Nat) : (w.passTo target n).Speaks P := by
  induction n generalizing w with
  | zero => exact h.moved hr ht
  | succ n ih =>
    unfold World.passTo
    split
    · rename_i t hstop
      obtain ⟨hnow, hle⟩ := nextStop?_bounds hstop
      have hr' := hr.op (.clock hnow)
      refine ih (h.moved hr hnow) ((quiesce_leads hr').reached hr') ?_
      rw [(quiesce_leads hr').clock]
      exact hle
    · exact h.moved hr ht

theorem goTo (h : w.Speaks P) (hr : Reached (.caller none) w) {target : Duration}
    (ht : w.clock.elapsed ≤ target) : (w.goTo target).Speaks P := by
  unfold World.goTo
  split
  · exact h.moved hr ht
  · exact h.passTo hr ht _

/-- A step from outside. -/
theorem take (h : w.Speaks P) (hr : Reached (.caller none) w) {s : ScenarioStep V}
    (hm : ∀ m ∈ s.mentionsWithin, P m) : (w.take s).1.Speaks P := by
  have hq := h.turns hr w.workload
  have hr' := quiesce_leads.reached hr
  cases s with
  | call c => exact (Talks.perform ⟨h, hr.sound.futures⟩ hm).toSpeaks
  | settle => exact hq
  | advance d =>
    show (w.advance d).1.Speaks P
    unfold World.advance
    dsimp only
    split
    · exact hq
    · rename_i target hadd
      have hle := Duration.le_of_add? hadd
      have hreported : (w.quiesce.report (.clockAdvanced d target)).Speaks P :=
        hq.quieter (.of_eq rfl rfl rfl rfl rfl)
      split
      · exact hreported.goTo ((report_leads _).reached hr') hle
      · exact hq.goTo hr' hle
  | setElapsed t =>
    show (w.setElapsed t).Speaks P
    unfold World.setElapsed
    dsimp only
    split
    · rename_i hlt
      exact hq.goTo hr' (Nat.le_of_lt hlt)
    · exact hq

/-- The tasks of a run name nothing but what was named by the bodies that were handed in. -/
theorem after (h : w.Speaks P) (hr : Reached (.caller none) w) {steps : List (ScenarioStep V)}
    (hm : ∀ s ∈ steps, ∀ m ∈ s.mentionsWithin, P m) : (w.after steps).Speaks P := by
  induction steps generalizing w with
  | nil => exact h
  | cons s steps ih =>
    exact ih (h.take hr (hm s List.mem_cons_self)) ((take_way s hr).reached hr)
      fun s hs => hm s (List.mem_cons_of_mem _ hs)

theorem start (jumps : Bool) : (World.start (V := V) jumps).Speaks P where
  works x hx := by cases hx
  rests x hx := by cases hx
  requests x hx := by cases hx
  threads p hp := by cases hp

end Speaks

end World

end TimedTasks

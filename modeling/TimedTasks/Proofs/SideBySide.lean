import TimedTasks.Proofs.Replies
/-!
What turns do to paired states. The turns of two tasks that stand for each other, taken one on each
side, leave the states paired; so does the turn of a veiled task, taken on its side alone.
-/

namespace TimedTasks

variable {V : Type}

/-- How far two runs have come. -/
inductive Pairing.Progresses (σ : Pairing) : Progress V → Progress V → Prop
  | suspended {on on' : Wait} {rest : List (Step V)} (h : σ.Waits on on')
      (hp : σ.Polite (Step.mentionsOf rest)) :
      σ.Progresses (.suspended on rest) (.suspended on' rest)
  | ended (r : RunEnd V) : σ.Progresses (.ended r) (.ended r)

/-- What is left of a run of a veiled task touches only what is veiled. -/
def Progress.Tame (σ : Pairing) : Progress V → Prop
  | .suspended _ rest => ∀ x ∈ rest, x.Tame σ
  | .ended _ => True

namespace World

variable {σ : Pairing} {κ : Nat → Nat → Prop} {w v : World V} {a b e i j : Nat}

/-- How often a child has started a run. -/
def runsOf (w : World V) (i : Nat) : Nat := (w.children[i]?.map (·.runs)).getD 0

/-- What may be said of a child that starts no run any more: it was cancelled, or it has only the
rest of its one run before it. -/
def DoneStarting (w : World V) (child : Child V) : Prop :=
  w.isSignalled child.cell = true ∨
    child.work.kind ≠ .periodic ∧ ∃ on rest, child.stage = .suspended on rest

/-- A periodic task that was cancelled is given up. -/
theorem periodicRounds_of_signalled {child : Child V} (hs : w.isSignalled child.cell = true)
    (i : Nat) (pace : Pace) (runs : List (Body V)) (n : Nat) :
    w.periodicRounds i child pace runs (n + 1) = w.giveUp i child := by
  simp [periodicRounds, hs]

/-- A run that lets a periodic task look for its next due time has cancelled nothing by its end. -/
theorem isSignalled_of_again {child : Child V} {pace : Pace} {p : Progress V} {w' : World V}
    (h : w.afterFiring i child pace p = (w', .again)) :
    w.isSignalled child.cell = w'.isSignalled child.cell := by
  cases p with
  | suspended on rest => cases h
  | ended r =>
    cases r with
    | returned value =>
      simp only [afterFiring] at h
      split at h
      · cases h
        refine (isSignalled_modify (c := child.cell) rfl ?_).symm
        exact fun _ => rfl
      · split at h <;> cases h
    | _ => cases h

/-- A call that touches only what is veiled changes no child and no waiter. -/
theorem perform_tame_frame (w : World V) {c : Call V} (ht : c.Tame σ) :
    (w.perform c).1.children = w.children ∧ (w.perform c).1.waiters = w.waiters := by
  have onAny {n : String} {f : Handle → World V × Answer V}
      (hf : ∀ x, (f x).1.children = w.children ∧ (f x).1.waiters = w.waiters) :
      (w.onFuture n f).1.children = w.children ∧ (w.onFuture n f).1.waiters = w.waiters := by
    unfold onFuture
    cases w.future n with
    | error p => exact ⟨rfl, rfl⟩
    | ok x => exact hf x
  have look {n : String} {f : Nat → World V × Answer V} (hf : ∀ e, (f e).1 = w) :
      (w.onExecutor n f).1.children = w.children ∧ (w.onExecutor n f).1.waiters = w.waiters := by
    unfold onExecutor
    cases w.executor n with
    | error p => exact ⟨rfl, rfl⟩
    | ok e => dsimp only; rw [hf e]; exact ⟨rfl, rfl⟩
  have tell {α : Type} {x : Except Panic α} {f : α → Answer V} :
      (w.answer f x).1.children = w.children ∧ (w.answer f x).1.waiters = w.waiters := by
    cases x <;> exact ⟨rfl, rfl⟩
  cases c with
  | cancel future interrupt =>
    exact onAny fun x => ⟨(w.cancel_frame x.cell interrupt).2.2.1,
      (w.cancel_frame x.cell interrupt).2.2.2.1⟩
  | share future name => exact onAny fun _ => ⟨rfl, rfl⟩
  | shareTask future name => exact onAny fun _ => ⟨rfl, rfl⟩
  | forget future => exact onAny fun _ => ⟨rfl, rfl⟩
  | inspect future => exact onAny fun _ => ⟨rfl, rfl⟩
  | delay future unit => cases unit <;> exact tell
  | dueTime future => exact tell
  | compare n m => exact tell
  | compareFixed future amount unit due => exact tell
  | sort futures => exact tell
  | lifecycle executor => exact look fun _ => rfl
  | describe executor => exact look fun _ => rfl
  | stats executor => exact look fun _ => rfl
  | _ => exact ht.elim

namespace Paired

/-! ## Runs -/

/-- What a piece of a run has come to on both sides. -/
def Stint (σ : Pairing) (κ : Nat → Nat → Prop) (r r' : World V × Progress V) : Prop :=
  Paired σ κ r.1 r'.1 ∧ σ.Progresses r.2 r'.2

theorem runSteps (h : Paired σ κ w v) (who : String) {steps : List (Step V)}
    (hp : σ.Polite (Step.mentionsOf steps)) :
    Stint σ κ (w.runSteps who steps) (v.runSteps who steps) := by
  induction steps generalizing w v with
  | nil => exact ⟨h.note who (.same _), .ended _⟩
  | cons s rest ih =>
    have hrest : σ.Polite (Step.mentionsOf rest) := fun m hm => hp m (by simp [Step.mentionsOf, hm])
    cases s with
    | sleep d =>
      simp only [World.runSteps]
      rw [h.now_eq]
      split
      · exact ⟨h, .suspended .forever hrest⟩
      · split
        · exact ih (h.note who (.same _)) hrest
        · exact ⟨h, .suspended (.time _) hrest⟩
    | act c =>
      have hc : σ.Polite c.mentions := fun m hm =>
        hp m (by simp [Step.mentionsOf, Step.mentions, hm])
      obtain ⟨h', ha⟩ := h.perform hc
      exact ih (h'.note who (.answered ha)) hrest
    | get f =>
      have hrel := h.futureNames f (hp _ (by simp [Step.mentionsOf, Step.mentions]))
      simp only [World.runSteps]
      revert hrel
      generalize w.futureNames.get? f = x
      generalize v.futureNames.get? f = y
      rintro (hxy | _)
      · dsimp only
        rw [h.read?_eq hxy.cell]
        split
        · exact ih (h.note who (.same _)) hrest
        · exact ⟨h, .suspended (.cell hxy.cell false) hrest⟩
      · exact ⟨h.note who (.same _), .ended _⟩
    | join f =>
      have hrel := h.futureNames f (hp _ (by simp [Step.mentionsOf, Step.mentions]))
      simp only [World.runSteps]
      revert hrel
      generalize w.futureNames.get? f = x
      generalize v.futureNames.get? f = y
      rintro (hxy | _)
      · dsimp only
        rw [h.read?_eq hxy.cell]
        split
        · exact ih (h.note who (.same _)) hrest
        · exact ⟨h.note who (.same _), .ended _⟩
        · exact ⟨h, .suspended (.cell hxy.cell true) hrest⟩
      · exact ⟨h.note who (.same _), .ended _⟩
    | ok value => exact ⟨h.note who (.same _), .ended _⟩
    | err cause => exact ⟨h.note who (.same _), .ended _⟩
    | panic => exact ⟨h.note who (.same _), .ended _⟩
    | pending => exact ⟨h, .suspended .forever hrest⟩

/-- What a piece of a run of a veiled task has come to. -/
structure StintLeft (σ : Pairing) (κ : Nat → Nat → Prop) (v w : World V)
    (r : World V × Progress V) : Prop where
  paired : Paired σ κ r.1 v
  tame : r.2.Tame σ
  children : r.1.children = w.children
  waiters : r.1.waiters = w.waiters

theorem runSteps_left (h : Paired σ κ w v) {who : String}
    (hw : σ.left.who w.children w.waiters who) {steps : List (Step V)}
    (ht : ∀ x ∈ steps, x.Tame σ) : StintLeft σ κ v w (w.runSteps who steps) := by
  have last (w : World V) (h : Paired σ κ w v) (hw : σ.left.who w.children w.waiters who)
      (event : Event V) (r : RunEnd V) : StintLeft σ κ v w (w.note who event, .ended r) :=
    ⟨h.note_left hw event, trivial, rfl, rfl⟩
  induction steps generalizing w with
  | nil => exact last w h hw _ _
  | cons s rest ih =>
    have hrest : ∀ x ∈ rest, x.Tame σ := fun x hx => ht x (List.mem_cons_of_mem _ hx)
    have next (event : Event V) : StintLeft σ κ v w ((w.note who event).runSteps who rest) := by
      have hnext := ih (h.note_left hw event) hw hrest
      exact ⟨hnext.paired, hnext.tame, hnext.children, hnext.waiters⟩
    cases s with
    | sleep d =>
      simp only [World.runSteps]
      split
      · exact ⟨h, hrest, rfl, rfl⟩
      · split
        · exact next _
        · exact ⟨h, hrest, rfl, rfl⟩
    | act c =>
      have hc : c.Tame σ := ht _ List.mem_cons_self
      obtain ⟨hchildren, hwaiters⟩ := w.perform_tame_frame hc
      have hw' : σ.left.who (w.perform c).1.children (w.perform c).1.waiters who := by
        rw [hchildren, hwaiters]
        exact hw
      have hnext := ih ((h.perform_left hc).note_left hw' (.answered (w.perform c).2)) hw' hrest
      exact ⟨hnext.paired, hnext.tame, hnext.children.trans hchildren,
        hnext.waiters.trans hwaiters⟩
    | get f =>
      simp only [World.runSteps]
      split
      · exact last w h hw _ _
      · split
        · exact next _
        · exact ⟨h, hrest, rfl, rfl⟩
    | join f =>
      simp only [World.runSteps]
      split
      · exact last w h hw _ _
      · split
        · exact next _
        · exact last w h hw _ _
        · exact ⟨h, hrest, rfl, rfl⟩
    | ok value => exact last w h hw _ _
    | err cause => exact last w h hw _ _
    | panic => exact last w h hw _ _
    | pending => exact ⟨h, hrest, rfl, rfl⟩

theorem resumeSteps (h : Paired σ κ w v) (who : String) {on on' : Wait} (ho : σ.Waits on on')
    {rest : List (Step V)} (hp : σ.Polite (Step.mentionsOf rest)) :
    Stint σ κ (w.resumeSteps who on rest) (v.resumeSteps who on' rest) := by
  cases ho with
  | forever => exact ⟨h, .suspended .forever hp⟩
  | time t =>
    simp only [World.resumeSteps]
    rw [h.now_eq]
    split
    · exact (h.note who (.same _)).runSteps who hp
    · exact ⟨h, .suspended (.time t) hp⟩
  | cell hc joined =>
    simp only [World.resumeSteps]
    rw [h.read?_eq hc]
    split
    · exact ⟨h, .suspended (.cell hc _) hp⟩
    · exact ⟨h.note who (.same _), .ended _⟩
    · exact (h.note who (.same _)).runSteps who hp

theorem resumeSteps_left (h : Paired σ κ w v) {who : String}
    (hw : σ.left.who w.children w.waiters who) (on : Wait) {rest : List (Step V)}
    (ht : ∀ x ∈ rest, x.Tame σ) : StintLeft σ κ v w (w.resumeSteps who on rest) := by
  have next (event : Event V) : StintLeft σ κ v w ((w.note who event).runSteps who rest) := by
    have hnext := (h.note_left hw event).runSteps_left hw ht
    exact ⟨hnext.paired, hnext.tame, hnext.children, hnext.waiters⟩
  cases on with
  | forever => exact ⟨h, ht, rfl, rfl⟩
  | time t =>
    simp only [World.resumeSteps]
    split
    · exact next _
    · exact ⟨h, ht, rfl, rfl⟩
  | cell c joined =>
    simp only [World.resumeSteps]
    split
    · exact ⟨h, ht, rfl, rfl⟩
    · exact ⟨h.note_left hw _, trivial, rfl, rfl⟩
    · exact next _

theorem closeRun {r r' : World V × Progress V} (h : Stint σ κ r r') (hc : σ.cell a b) :
    Stint σ κ (r.1.closeRun a r.2) (r'.1.closeRun b r'.2) := by
  obtain ⟨w, p⟩ := r
  obtain ⟨v, q⟩ := r'
  obtain ⟨h, hpq⟩ := h
  cases hpq with
  | suspended ho hp => exact ⟨h, .suspended ho hp⟩
  | ended r =>
    cases r with
    | panicked => exact ⟨h, .ended _⟩
    | _ => exact ⟨h.endRun hc, .ended _⟩

theorem closeRun_left {r : World V × Progress V} (h : StintLeft σ κ v w r) (ha : σ.left.cell a) :
    StintLeft σ κ v w (r.1.closeRun a r.2) := by
  obtain ⟨w', p⟩ := r
  obtain ⟨h, ht, hchildren, hwaiters⟩ := h
  cases p with
  | suspended on rest => exact ⟨h, ht, hchildren, hwaiters⟩
  | ended r =>
    cases r with
    | panicked => exact ⟨h, ht, hchildren, hwaiters⟩
    | _ => exact ⟨h.endRun_left ha, trivial, hchildren, hwaiters⟩

theorem startRun (h : Paired σ κ w v) (hc : σ.cell a b) (who : String) {body : Body V}
    (hp : w.isSignalled a = false → σ.Polite body.mentions) :
    Stint σ κ (w.startRun a who body) (v.startRun b who body) := by
  have h₁ := (h.modifyCell hc fun cell => { cell with phase := .running }).record (.called hc)
  unfold World.startRun
  rw [h.mayStart_eq hc, ← h.isSignalled_eq hc]
  split
  · exact ⟨h, .ended _⟩
  · split
    · exact ⟨h, .ended _⟩
    · rename_i hs
      cases body with
      | broken => exact ⟨h₁, .ended _⟩
      | steps s =>
        have h₂ := (h₁.record (.polled hc)).note who (.same .started)
        exact closeRun (h₂.runSteps who (hp (Bool.eq_false_iff.mpr hs))) hc

theorem startRun_left (h : Paired σ κ w v) (ha : σ.left.cell a) {who : String}
    (hw : σ.left.who w.children w.waiters who) {body : Body V} (ht : body.Tame σ) :
    StintLeft σ κ v w (w.startRun a who body) := by
  have h₁ := (h.modifyCell_left ha fun cell => { cell with phase := .running }).record_left
    (x := .called a) ha
  unfold World.startRun
  split
  · exact ⟨h, trivial, rfl, rfl⟩
  · split
    · exact ⟨h, trivial, rfl, rfl⟩
    · cases body with
      | broken => exact ⟨h₁, trivial, rfl, rfl⟩
      | steps s =>
        have h₂ := (h₁.record_left (x := .polled a) ha).note_left hw .started
        have h₃ := h₂.runSteps_left hw ht
        exact closeRun_left (w := w) ⟨h₃.paired, h₃.tame, h₃.children, h₃.waiters⟩ ha

theorem resumeRun (h : Paired σ κ w v) (hc : σ.cell a b) (who : String) {on on' : Wait}
    (ho : σ.Waits on on') {rest : List (Step V)} (hp : σ.Polite (Step.mentionsOf rest)) :
    Stint σ κ (w.resumeRun a who on rest) (v.resumeRun b who on' rest) := by
  unfold World.resumeRun
  rw [h.isSignalled_eq hc]
  split
  · exact ⟨(h.note who (.same .dropped)).endRun hc, .ended _⟩
  · exact closeRun ((h.record (.polled hc)).resumeSteps who ho hp) hc

theorem resumeRun_left (h : Paired σ κ w v) (ha : σ.left.cell a) {who : String}
    (hw : σ.left.who w.children w.waiters who) (on : Wait) {rest : List (Step V)}
    (ht : ∀ x ∈ rest, x.Tame σ) : StintLeft σ κ v w (w.resumeRun a who on rest) := by
  unfold World.resumeRun
  split
  · exact ⟨(h.note_left hw _).endRun_left ha, trivial, rfl, rfl⟩
  · have h₁ := (h.record_left (x := .polled a) ha).resumeSteps_left hw on ht
    exact closeRun_left (w := w) ⟨h₁.paired, h₁.tame, h₁.children, h₁.waiters⟩ ha

/-! ## Batches -/

theorem notifyBatch (h : Paired σ κ w v) (b : Nat) :
    Paired σ κ (w.notifyBatch b) (v.notifyBatch b) :=
  (h.modifyBatch b (f := fun x => { x with notified := true })
    (g := fun x => { x with notified := true })
    fun _ _ hxy => { hxy with notified := rfl }).wakeBatch b

theorem batch (h : Paired σ κ w v) (b : Nat) :
    Option.Rel σ.Batches w.batches[b]? v.batches[b]? := h.batches.rel rfl

theorem countDown (h : Paired σ κ w v) (b : Nat) : Paired σ κ (w.countDown b) (v.countDown b) := by
  have h₁ := h.modifyBatch b (f := fun x => { x with remaining := x.remaining - 1 })
    (g := fun x => { x with remaining := x.remaining - 1 })
    fun _ _ hxy => { hxy with remaining := congrArg (· - 1) hxy.remaining }
  have hrel := h₁.batch b
  unfold World.countDown
  dsimp only
  revert hrel
  generalize (w.modifyBatch b fun x => { x with remaining := x.remaining - 1 }).batches[b]? = x
  generalize (v.modifyBatch b fun x => { x with remaining := x.remaining - 1 }).batches[b]? = y
  rintro (hxy | _)
  · dsimp only
    rw [hxy.remaining]
    split
    · exact h₁.notifyBatch b
    · exact h₁
  · exact h₁

theorem offer (h : Paired σ κ w v) (b : Nat) (value : Option V) :
    Paired σ κ (w.offer b value) (v.offer b value) := by
  have hrel := h.batch b
  unfold World.offer
  revert hrel
  generalize w.batches[b]? = x
  generalize v.batches[b]? = y
  rintro (hxy | _)
  · dsimp only
    rw [hxy.winner]
    split
    · exact (h.modifyBatch b (f := fun x => { x with winner := some value })
        (g := fun x => { x with winner := some value })
        fun _ _ hxy => { hxy with winner := rfl }).notifyBatch b
    · exact h
  · exact h

theorem tellBatch (h : Paired σ κ w v) (b : Nat) (r : RunEnd V) :
    Paired σ κ (w.tellBatch b r) (v.tellBatch b r) := by
  cases r with
  | returned value => exact h.offer b value
  | failed cause =>
    exact h.modifyBatch b (f := fun x => { x with lastFailure := some cause })
      (g := fun x => { x with lastFailure := some cause })
      fun _ _ hxy => { hxy with lastFailure := rfl }
  | _ => exact h

/-! ## The end of a child -/

section Child

variable {child child' : Child V} {p : Prop}

theorem reportUnwanted (h : Paired σ κ w v) (yield : Yield V) (r : RunEnd V) :
    Paired σ κ (w.reportUnwanted child yield r) (v.reportUnwanted child' yield r) := by
  cases r with
  | failed cause =>
    cases yield with
    | unwanted => exact h.report _ _
    | _ => exact h
  | _ => exact h

theorem reportUnwanted_left (h : Paired σ κ w v) (yield : Yield V) (r : RunEnd V) :
    Paired σ κ (w.reportUnwanted child yield r) v := by
  cases r with
  | failed cause =>
    cases yield with
    | unwanted => exact h.report_left _
    | _ => exact h
  | _ => exact h

theorem deliver (h : Paired σ κ w v) (hc : σ.Children κ i j child child') (r : RunEnd V) :
    Paired σ κ (w.deliver child r) (v.deliver child' r) := by
  have h₁ := h.record (.ended hc.cell r)
  unfold World.deliver
  dsimp only
  rw [← hc.work]
  cases child.work with
  | once yield body => exact (h₁.reportUnwanted yield r).settleRun hc.cell _
  | delayed due body => exact h₁.settleRun hc.cell _
  | periodic pace runs => exact h₁.settleRun hc.cell _
  | oneOfAll b body => exact (h₁.settleRun hc.cell _).countDown b
  | oneOfAny b body => exact ((h₁.tellBatch b r).settleRun hc.cell _).countDown b

theorem deliver_left (h : Paired σ κ w v) (hc : child.Veiled σ σ.left p) (r : RunEnd V) :
    Paired σ κ (w.deliver child r) v := by
  have h₁ := h.record_left (x := .ended child.cell r) hc.cell
  have halone := hc.alone
  unfold World.deliver
  dsimp only
  cases hw : child.work with
  | once yield body => exact (h₁.reportUnwanted_left yield r).settleRun_left hc.cell _
  | delayed due body => exact h₁.settleRun_left hc.cell _
  | periodic pace runs => exact h₁.settleRun_left hc.cell _
  | oneOfAll b body => rw [hw] at halone; cases halone
  | oneOfAny b body => rw [hw] at halone; cases halone

theorem finish (h : Paired σ κ w v) (hi : σ.child i j) (hc : σ.Children κ i j child child')
    (r : RunEnd V) : Paired σ κ (w.finish i child r) (v.finish j child' r) :=
  (h.deliver hc r).endChild hi

theorem finish_left (h : Paired σ κ w v) (hi : σ.left.child i) (hc : child.Veiled σ σ.left p)
    (r : RunEnd V) : Paired σ κ (w.finish i child r) v :=
  (h.deliver_left hc r).endChild_left hi

/-! ## The turn of a child -/

theorem parkChild (h : Paired σ κ w v) (hi : σ.child i j) {s t : Stage V} (hs : σ.Stages s t)
    (hr : ∀ on rest, s = .suspended on rest → σ.Polite (Step.mentionsOf rest)) :
    Paired σ κ (w.parkChild i s) (v.parkChild j t) := by
  have h₁ := h.setStage hi hs hr
  unfold World.parkChild
  dsimp only
  cases hx : (w.setStage i s).children[i]? with
  | none => rw [h₁.children.get_none hi hx]; exact h₁
  | some x =>
    obtain ⟨y, hy, hxy⟩ := h₁.child hi hx
    rw [hy]
    dsimp only
    rw [h₁.isSignalled_eq hxy.cell]
    split
    · exact h₁.enqueue (.child hi)
    · exact h₁.suspend (.child hi)

theorem suspendBody (h : Paired σ κ w v) (hi : σ.child i j) {on on' : Wait}
    (ho : σ.Waits on on') {rest : List (Step V)} (hp : σ.Polite (Step.mentionsOf rest)) :
    Paired σ κ (w.parkChild i (.suspended on rest)) (v.parkChild j (.suspended on' rest)) := by
  refine h.parkChild hi (.suspended ho rest) ?_
  rintro _ _ ⟨⟩
  exact hp

theorem parkChild_left (h : Paired σ κ w v) (hi : σ.left.child i) {s : Stage V}
    (hs : ∀ on rest, s = .suspended on rest → ∀ x ∈ rest, x.Tame σ) :
    Paired σ κ (w.parkChild i s) v := by
  have h₁ := h.setStage_left hi hs
  unfold World.parkChild
  dsimp only
  split
  · exact h₁
  · split
    · exact h₁.enqueue_left (r := .child i) hi
    · exact h₁.suspend_left (r := .child i) hi

theorem afterOnce (hi : σ.child i j) (hc : σ.Children κ i j child child')
    {r r' : World V × Progress V} (h : Stint σ κ r r') :
    Paired σ κ (r.1.afterOnce i child r.2) (r'.1.afterOnce j child' r'.2) := by
  obtain ⟨w, p⟩ := r
  obtain ⟨v, q⟩ := r'
  obtain ⟨h, hpq⟩ := h
  cases hpq with
  | suspended ho hp => exact h.suspendBody hi ho hp
  | ended r => exact h.finish hi hc r

theorem afterOnce_left (hi : σ.left.child i) (hc : child.Veiled σ σ.left p)
    {r : World V × Progress V} (h : StintLeft σ κ v w r) :
    Paired σ κ (r.1.afterOnce i child r.2) v := by
  obtain ⟨w', p⟩ := r
  obtain ⟨h, ht, -, -⟩ := h
  cases p with
  | suspended on rest =>
    refine h.parkChild_left hi ?_
    rintro _ _ ⟨⟩
    exact ht
  | ended r => exact h.finish_left hi hc r

/-- Whether a child may go on to start runs. -/
def Free (σ : Pairing) (i j : Nat) (child : Child V) : Prop :=
  σ.Ahead (σ.start i j) child.work ∧
    (σ.sealed → child.executor = σ.executor → σ.keeps child.work.kind)

theorem mayRun_child (h : Paired σ κ w v) (hc : σ.Children κ i j child child')
    (hf : Free σ i j child) :
    w.mayRun child.executor child.work.kind = v.mayRun child'.executor child'.work.kind := by
  rw [← hc.executor, ← hc.work]
  exact h.mayRun_eq fun he hs => hf.2 hs he

/-- The runs that a child has started are those from before and maybe more. -/
theorem start_le (h : Paired σ κ w v) (hi : σ.child i j) :
    σ.start i j ≤ (w.children[i]?.map (·.runs)).getD 0 := by
  cases hx : w.children[i]? with
  | some x =>
    obtain ⟨y, -, hxy⟩ := h.child hi hx
    exact hxy.since
  | none =>
    obtain ⟨k, rfl⟩ := Nat.exists_eq_add_of_le (List.getElem?_eq_none_iff.mp hx)
    rw [h.children.sharp.right hi (h.children.fresh k), h.anew k]
    exact Nat.zero_le _

theorem giveUp (h : Paired σ κ w v) (hi : σ.child i j) (hc : σ.Children κ i j child child') :
    Paired σ κ (w.giveUp i child) (v.giveUp j child') := h.finish hi hc .stopped

theorem fire (h : Paired σ κ w v) (hi : σ.child i j) (hc : σ.Children κ i j child child')
    {pace : Pace} {runs : List (Body V)}
    (hp : ∀ n, σ.start i j ≤ n → σ.Polite (bodyForRun runs n).mentions) :
    Stint σ κ (w.fire i child pace runs) (v.fire j child' pace runs) := by
  have hn : (w.children[i]?.map (·.runs)).getD 0 = (v.children[j]?.map (·.runs)).getD 0 := by
    cases hx : w.children[i]? with
    | none => rw [h.children.get_none hi hx]
    | some x =>
      obtain ⟨y, hy, hxy⟩ := h.child hi hx
      simp [hy, hxy.runs]
  have h₁ := h.modifyChild hi (f := fun x => { x with runs := x.runs + 1 })
    (g := fun x => { x with runs := x.runs + 1 }) (fun _ => rfl) (fun _ => rfl)
    fun _ _ hxy => { hxy with
      runs := congrArg (· + 1) hxy.runs
      since := Nat.le_succ_of_le hxy.since }
  have hstart := h.start_le hi
  unfold World.fire
  dsimp only
  rw [hn] at hstart ⊢
  rw [hc.name]
  exact (h₁.report _ _).startRun hc.cell _ fun _ => hp _ hstart

theorem afterFiring (hi : σ.child i j) (hc : σ.Children κ i j child child') (pace : Pace)
    {r r' : World V × Progress V} (h : Stint σ κ r r') :
    Paired σ κ (r.1.afterFiring i child pace r.2).1 (r'.1.afterFiring j child' pace r'.2).1 ∧
      (r.1.afterFiring i child pace r.2).2 = (r'.1.afterFiring j child' pace r'.2).2 := by
  obtain ⟨w, p⟩ := r
  obtain ⟨v, q⟩ := r'
  obtain ⟨h, hpq⟩ := h
  cases hpq with
  | suspended ho hp => exact ⟨h.suspendBody hi ho hp, rfl⟩
  | ended r =>
    cases r with
    | returned value =>
      have h₁ := h.record (.ended hc.cell (.returned value))
      have hmark := h₁.markOf?_eq hc.cell
      have hsignalled := h₁.isSignalled_eq hc.cell
      have hnow := h₁.now_eq
      simp only [World.afterFiring]
      revert h₁ hmark hsignalled hnow
      generalize w.record (.ended child.cell (.returned value)) = w₁
      generalize v.record (.ended child'.cell (.returned value)) = v₁
      intro h₁ hmark hsignalled hnow
      rw [hmark, hsignalled, hnow]
      cases pace.next? (((v₁.markOf? child'.cell).map (·.due)).getD v₁.now) v₁.now with
      | some next => exact ⟨h₁.modifyCell hc.cell _, rfl⟩
      | none =>
        dsimp only
        split
        · exact ⟨h₁.giveUp hi hc, rfl⟩
        · exact ⟨h₁.parkChild hi .stranded (by simp), rfl⟩
    | failed cause => exact ⟨(h.report _ _).finish hi hc _, rfl⟩
    | stopped => exact ⟨h.giveUp hi hc, rfl⟩
    | panicked => exact ⟨h.finish hi hc _, rfl⟩

theorem periodicRounds (h : Paired σ κ w v) (hi : σ.child i j) (hc : σ.Children κ i j child child')
    {pace : Pace} {runs : List (Body V)} (hw : child.work = .periodic pace runs)
    (hf : Free σ i j child) (n : Nat) :
    Paired σ κ (w.periodicRounds i child pace runs n) (v.periodicRounds j child' pace runs n) := by
  have hp : σ.Ahead (σ.start i j) (.periodic pace runs) := hw ▸ hf.1
  induction n generalizing w v with
  | zero =>
    simp only [World.periodicRounds]
    rw [h.now_eq]
    exact (h.setStage hi (.scheduled _) (by simp)).enqueue (.child hi)
  | succ n ih =>
    have hmay := h.mayRun_child hc hf
    rw [← hc.work, hw] at hmay
    have hmay : w.mayRun child.executor .periodic = v.mayRun child'.executor .periodic := hmay
    simp only [World.periodicRounds]
    rw [hmay, h.isSignalled_eq hc.cell, h.markOf?_eq hc.cell, h.now_eq]
    split
    · exact h.giveUp hi hc
    · split
      · exact h.parkChild hi (.scheduled _) (by simp)
      · have hstint : Stint σ κ (w.fire i child pace runs) (v.fire j child' pace runs) :=
          h.fire hi hc hp
        obtain ⟨h₁, heq⟩ := afterFiring hi hc pace hstint
        revert h₁ heq
        generalize (w.fire i child pace runs).1.afterFiring i child pace
          (w.fire i child pace runs).2 = r
        generalize (v.fire j child' pace runs).1.afterFiring j child' pace
          (v.fire j child' pace runs).2 = r'
        obtain ⟨w', p⟩ := r
        obtain ⟨v', q⟩ := r'
        rintro h₁ rfl
        cases p with
        | settled => exact h₁
        | again => exact ih h₁

theorem delayedTurn (h : Paired σ κ w v) (hi : σ.child i j) (hc : σ.Children κ i j child child')
    (due : Instant) {due' : Instant} {body : Body V} (hw : child.work = .delayed due' body)
    (hf : w.isSignalled child.cell = true ∨ Free σ i j child) :
    Paired σ κ (w.delayedTurn i child due body) (v.delayedTurn j child' due body) := by
  unfold World.delayedTurn
  rw [h.isSignalled_eq hc.cell] at hf ⊢
  rw [h.now_eq]
  split
  · exact h.giveUp hi hc
  · split
    · exact h.parkChild hi (.scheduled due) (by simp)
    · rename_i hs _
      have hf := hf.resolve_left hs
      have hp : σ.Ahead (σ.start i j) (.delayed due' body) := hw ▸ hf.1
      have hmay := h.mayRun_child hc hf
      rw [← hc.work, hw] at hmay
      have hmay : w.mayRun child.executor .delayed = v.mayRun child'.executor .delayed := hmay
      rw [hmay, ← hc.name]
      split
      · exact h.giveUp hi hc
      · exact afterOnce hi hc (h.startRun hc.cell _ fun _ => hp)

/-- A child that was cancelled may be left to its rounds: it starts no run in them. -/
theorem rounds (h : Paired σ κ w v) (hi : σ.child i j) (hc : σ.Children κ i j child child')
    {pace : Pace} {runs : List (Body V)} (hw : child.work = .periodic pace runs)
    (hf : w.isSignalled child.cell = true ∨ Free σ i j child) (n : Nat) :
    Paired σ κ (w.periodicRounds i child pace runs n) (v.periodicRounds j child' pace runs n) := by
  rcases hf with hs | hf
  · cases n with
    | zero =>
      simp only [World.periodicRounds]
      rw [h.now_eq]
      exact (h.setStage hi (.scheduled _) (by simp)).enqueue (.child hi)
    | succ n =>
      rw [periodicRounds_of_signalled hs,
        periodicRounds_of_signalled ((h.isSignalled_eq hc.cell).symm.trans hs)]
      exact h.giveUp hi hc
  · exact h.periodicRounds hi hc hw hf n

theorem firstTurn (h : Paired σ κ w v) (hi : σ.child i j) (hc : σ.Children κ i j child child')
    (hf : w.isSignalled child.cell = true ∨ Free σ i j child) :
    Paired σ κ (w.firstTurn i child) (v.firstTurn j child') := by
  have h₁ := h.report (.childStarted (w.nameOf child.executor) child.id child.work.kind)
    (.childStarted (v.nameOf child'.executor) child'.id child'.work.kind)
  have once (body : Body V) (hp : Free σ i j child → σ.Polite body.mentions) := afterOnce hi hc
    (h₁.startRun hc.cell child.name fun hs => hp (hf.resolve_left fun ht => by
      have ht : (w.report (.childStarted (w.nameOf child.executor) child.id
        child.work.kind)).isSignalled child.cell = true := ht
      simp [ht] at hs))
  have hahead : Free σ i j child → σ.Ahead (σ.start i j) child.work := And.left
  unfold World.firstTurn
  rw [← hc.work] at once ⊢
  dsimp only at once ⊢
  rw [← hc.name]
  cases hw : child.work with
  | once yield body => rw [hw] at hahead once; exact once body hahead
  | oneOfAll b body => rw [hw] at hahead once; exact once body hahead
  | oneOfAny b body => rw [hw] at hahead once; exact once body hahead
  | delayed due body =>
    have h₂ := h₁.delayedTurn hi hc due hw hf
    rw [← hc.work, hw] at h₂
    exact h₂
  | periodic pace runs =>
    have h₂ := h₁.rounds hi hc hw hf turnRounds
    rw [← hc.work, hw] at h₂
    exact h₂

/-- What follows a piece of a run, on both sides. -/
theorem closeTurn {r r' : World V × Progress V} (hstint : Stint σ κ r r') (hi : σ.child i j)
    (hc : σ.Children κ i j child child')
    (hf : child.work.kind = .periodic → r.1.isSignalled child.cell = true ∨ Free σ i j child)
    (rounds : Nat) :
    Paired σ κ (r.1.closeTurn i child rounds r.2) (r'.1.closeTurn j child' rounds r'.2) := by
  have honce := afterOnce hi hc hstint
  unfold World.closeTurn
  rw [← hc.work]
  cases hw : child.work with
  | periodic pace runs =>
    have hf := hf (by rw [hw, Work.kind])
    obtain ⟨h₁, hsame⟩ := afterFiring hi hc pace hstint
    dsimp only
    rcases hr : r.1.afterFiring i child pace r.2 with ⟨w₁, after⟩
    rcases hr' : r'.1.afterFiring j child' pace r'.2 with ⟨v₁, after'⟩
    rw [hr, hr'] at h₁ hsame
    obtain rfl : after = after' := hsame
    cases after with
    | settled => exact h₁
    | again => exact h₁.rounds hi hc hw (hf.imp_left (isSignalled_of_again hr ▸ ·)) rounds
  | _ => exact honce

theorem suspendedTurn (h : Paired σ κ w v) (hi : σ.child i j) (hc : σ.Children κ i j child child')
    {on on' : Wait} (ho : σ.Waits on on') {rest : List (Step V)}
    (hp : σ.Polite (Step.mentionsOf rest))
    (hf : w.isSignalled child.cell = true ∨ child.work.kind ≠ .periodic ∨ Free σ i j child) :
    Paired σ κ (w.suspendedTurn i child on rest) (v.suspendedTurn j child' on' rest) := by
  cases hs : w.isSignalled child.cell with
  | true =>
    rw [suspendedTurn_of_signalled hs,
      suspendedTurn_of_signalled ((h.isSignalled_eq hc.cell).symm.trans hs), ← hc.name]
    exact ((h.note _ (.same _)).endRun hc.cell).giveUp hi hc
  | false =>
    have hstint := h.resumeRun hc.cell child.name ho hp
    unfold World.suspendedTurn
    rw [← hc.name]
    refine closeTurn hstint hi hc (fun hk => .inr ?_) turnRounds
    exact (hf.resolve_left (by simp [hs])).resolve_left fun hn => hn hk

/-- The turns of children that stand for each other. -/
theorem childTurn (h : Paired σ κ w v) (hi : σ.child i j) (hκ : ¬ κ i j)
    (hpast : σ.past i j → ∀ child, w.children[i]? = some child → child.hasEnded = false →
      w.DoneStarting child) : Paired σ κ (w.childTurn i) (v.childTurn j) := by
  unfold World.childTurn
  cases hx : w.children[i]? with
  | none => rw [h.children.get_none hi hx]; exact h
  | some child =>
    obtain ⟨child', hy, hc⟩ := h.child hi hx
    rw [hy]
    have hspent : Free σ i j child ∨ (child.hasEnded = false → w.DoneStarting child) :=
      hc.goesOn.symm.imp id fun hp => hpast hp child hx
    -- A child that starts no run any more and is not suspended was cancelled.
    have hfirst (hn : child.hasEnded = false) (hst : ∀ on rest, child.stage ≠ .suspended on rest) :
        w.isSignalled child.cell = true ∨ Free σ i j child := by
      rcases hspent with hf | hspent
      · exact .inr hf
      · rcases hspent hn with hs | ⟨-, on, rest, hs⟩
        · exact .inl hs
        · exact absurd hs (hst on rest)
    have hstage := hc.stage
    dsimp only
    rw [← hc.work]
    revert hstage
    cases hst : child.stage with
    | created =>
      generalize child'.stage = t
      intro hstage
      cases hstage
      exact h.firstTurn hi hc (hfirst (by simp [Child.hasEnded, hst]) (by simp [hst]))
    | scheduled due =>
      generalize child'.stage = t
      intro hstage
      cases hstage
      have hf := hfirst (by simp [Child.hasEnded, hst]) (by simp [hst])
      cases hw : child.work with
      | delayed due' body =>
        exact h.delayedTurn hi hc due hw hf
      | periodic pace runs =>
        dsimp only
        unfold World.periodicTurn
        rw [← h.isSignalled_eq hc.cell, ← h.now_eq]
        split
        · exact h.giveUp hi hc
        · split
          · exact h.parkChild hi (.scheduled due) (by simp)
          · exact h.rounds hi hc hw hf turnRounds
      | _ => exact h
    | suspended on rest =>
      generalize child'.stage = t
      intro hstage
      cases hstage with
      | suspended ho =>
        refine h.suspendedTurn hi hc ho ((hc.rest on rest hst).resolve_left hκ) ?_
        rcases hspent with hf | hspent
        · exact .inr (.inr hf)
        · rcases hspent (by simp [Child.hasEnded, hst]) with hs | ⟨hd, -⟩
          · exact .inl hs
          · exact .inr (.inl hd)
    | stranded =>
      generalize child'.stage = t
      intro hstage
      cases hstage
      dsimp only
      rw [h.isSignalled_eq hc.cell]
      split
      · exact h.giveUp hi hc
      · exact h.parkChild hi .stranded (by simp)
    | ended =>
      generalize child'.stage = t
      intro hstage
      cases hstage
      exact h

/-! ## The turn of a veiled child -/

theorem fire_left (h : Paired σ κ w v) (hi : σ.left.child i) (hc : child.Veiled σ σ.left p)
    (hw : σ.left.who w.children w.waiters child.name) {n : Nat} (hn : n ≤ runsOf w i) (pace : Pace)
    {runs : List (Body V)} (ht : ∀ k, n ≤ k → (bodyForRun runs k).Tame σ) :
    Paired σ κ (w.fire i child pace runs).1 v ∧ (w.fire i child pace runs).2.Tame σ ∧
      σ.left.who (w.fire i child pace runs).1.children (w.fire i child pace runs).1.waiters
        child.name ∧ n ≤ runsOf (w.fire i child pace runs).1 i := by
  have hsigns : SameSigns w (w.modifyChild i fun x => { x with runs := x.runs + 1 }) :=
    .children_modify fun _ => rfl
  have h₁ := h.modifyChild_left hi (f := fun x => { x with runs := x.runs + 1 }) (fun _ => rfl)
    fun x _ hx => { hx with work := hx.work.mono (Nat.le_succ _) }
  have hw₁ := Veil.who_mono hsigns.children hsigns.waiters hw
  unfold World.fire
  dsimp only
  have hstint := (h₁.report_left (.firing ((w.modifyChild i fun x => { x with
    runs := x.runs + 1 }).nameOf child.executor) (runsOf w i + 1) pace)).startRun_left hc.cell hw₁
      (ht (runsOf w i) hn)
  have hcount : runsOf w i ≤ runsOf (w.modifyChild i fun x => { x with runs := x.runs + 1 }) i := by
    unfold runsOf World.modifyChild
    rw [List.getElem?_modify_eq]
    cases w.children[i]? with
    | none => exact Nat.le_refl 0
    | some x => exact Nat.le_succ _
  obtain ⟨hpaired, htame, hchildren, hwaiters⟩ := hstint
  refine ⟨hpaired, htame, ?_, Nat.le_trans hn (Nat.le_trans hcount (Nat.le_of_eq ?_))⟩
  · exact hchildren.symm ▸ hwaiters.symm ▸ hw₁
  · exact congrArg (fun l : List (Child V) => (l[i]?.map (·.runs)).getD 0) hchildren.symm

theorem afterFiring_left (h : Paired σ κ w v) (hi : σ.left.child i) (hc : child.Veiled σ σ.left p)
    (pace : Pace) {p : Progress V} (ht : p.Tame σ) :
    Paired σ κ (w.afterFiring i child pace p).1 v ∧
      ((w.afterFiring i child pace p).2 = .again →
        (w.afterFiring i child pace p).1.children = w.children ∧
        (w.afterFiring i child pace p).1.waiters = w.waiters) := by
  cases p with
  | suspended on rest =>
    refine ⟨h.parkChild_left hi ?_, fun ha => by cases ha⟩
    rintro _ _ ⟨⟩
    exact ht
  | ended r =>
    cases r with
    | returned value =>
      have h₁ := h.record_left (x := .ended child.cell (.returned value)) hc.cell
      simp only [World.afterFiring]
      split
      · exact ⟨h₁.modifyCell_left hc.cell _, fun _ => ⟨rfl, rfl⟩⟩
      · split
        · exact ⟨h₁.finish_left hi hc _, fun ha => by cases ha⟩
        · exact ⟨h₁.parkChild_left hi (by simp), fun ha => by cases ha⟩
    | failed cause => exact ⟨(h.report_left _).finish_left hi hc _, fun ha => by cases ha⟩
    | stopped => exact ⟨h.finish_left hi hc _, fun ha => by cases ha⟩
    | panicked => exact ⟨h.finish_left hi hc _, fun ha => by cases ha⟩

/-- After a run of a veiled periodic child that another one may follow, what was known of the child
is known again. -/
theorem again_left (h : Paired σ κ w v) (hi : σ.left.child i) (hc : child.Veiled σ σ.left p)
    (hw : σ.left.who w.children w.waiters child.name) {m : Nat} (hm : m ≤ runsOf w i) (pace : Pace)
    {q : Progress V} (ht : q.Tame σ) {w' : World V} {after : AfterRun}
    (hr : w.afterFiring i child pace q = (w', after)) :
    Paired σ κ w' v ∧
      (after = .again → σ.left.who w'.children w'.waiters child.name ∧ m ≤ runsOf w' i) := by
  obtain ⟨h₁, hframe⟩ := h.afterFiring_left hi hc pace ht
  rw [hr] at h₁ hframe
  refine ⟨h₁, fun ha => ?_⟩
  obtain ⟨hchildren, hwaiters⟩ := hframe ha
  rw [runsOf, show w'.children = _ from hchildren, show w'.waiters = _ from hwaiters]
  exact ⟨hw, hm⟩

/-- A run of a veiled periodic child and what follows it. -/
theorem round_left (h : Paired σ κ w v) (hi : σ.left.child i) (hc : child.Veiled σ σ.left p)
    (hw : σ.left.who w.children w.waiters child.name) {m : Nat} (hm : m ≤ runsOf w i) (pace : Pace)
    {runs : List (Body V)} (ht : ∀ k, m ≤ k → (bodyForRun runs k).Tame σ) {w' : World V}
    {after : AfterRun}
    (hr : (w.fire i child pace runs).1.afterFiring i child pace (w.fire i child pace runs).2 =
      (w', after)) :
    Paired σ κ w' v ∧
      (after = .again → σ.left.who w'.children w'.waiters child.name ∧ m ≤ runsOf w' i) := by
  obtain ⟨h₁, ht₁, hw₁, hm₁⟩ := h.fire_left hi hc hw hm pace ht
  exact h₁.again_left hi hc hw₁ hm₁ pace ht₁ hr

theorem periodicRounds_left (h : Paired σ κ w v) (hi : σ.left.child i)
    (hc : child.Veiled σ σ.left p) (hw : σ.left.who w.children w.waiters child.name) {m : Nat}
    (hm : m ≤ runsOf w i) {pace : Pace} {runs : List (Body V)}
    (ht : ∀ k, m ≤ k → (bodyForRun runs k).Tame σ) (n : Nat) :
    Paired σ κ (w.periodicRounds i child pace runs n) v := by
  induction n generalizing w with
  | zero => exact (h.setStage_left hi (by simp)).enqueue_left (r := .child i) hi
  | succ n ih =>
    simp only [World.periodicRounds]
    split
    · exact h.finish_left hi hc _
    · split
      · exact h.parkChild_left hi (by simp)
      · split
        · rename_i hr
          exact (h.round_left hi hc hw hm pace ht hr).1
        · rename_i hr
          obtain ⟨h₂, hagain⟩ := h.round_left hi hc hw hm pace ht hr
          obtain ⟨hw₂, hm₂⟩ := hagain rfl
          exact ih h₂ hw₂ hm₂

theorem delayedTurn_left (h : Paired σ κ w v) (hi : σ.left.child i) (hc : child.Veiled σ σ.left p)
    (hw : σ.left.who w.children w.waiters child.name) (due : Instant) {body : Body V}
    (ht : body.Tame σ) : Paired σ κ (w.delayedTurn i child due body) v := by
  unfold World.delayedTurn
  split
  · exact h.finish_left hi hc _
  · split
    · exact h.parkChild_left hi (by simp)
    · split
      · exact h.finish_left hi hc _
      · exact afterOnce_left hi hc (h.startRun_left hc.cell hw ht)

theorem firstTurn_left (h : Paired σ κ w v) (hi : σ.left.child i) (hc : child.Veiled σ σ.left p)
    (hw : σ.left.who w.children w.waiters child.name) (hn : child.runs ≤ runsOf w i) :
    Paired σ κ (w.firstTurn i child) v := by
  have h₁ := h.report_left (.childStarted (w.nameOf child.executor) child.id child.work.kind)
  have once {body : Body V} (ht : body.Tame σ) :=
    afterOnce_left hi hc (h₁.startRun_left hc.cell hw ht)
  have htame := hc.work
  unfold World.firstTurn
  dsimp only at once ⊢
  cases hwork : child.work with
  | once yield body => rw [hwork] at htame once; exact once htame
  | oneOfAll b body => rw [hwork] at htame once; exact once htame
  | oneOfAny b body => rw [hwork] at htame once; exact once htame
  | delayed due body =>
    rw [hwork] at htame h₁
    exact h₁.delayedTurn_left hi hc hw due htame
  | periodic pace runs =>
    rw [hwork] at htame h₁
    exact h₁.periodicRounds_left hi hc hw hn htame turnRounds

/-- What is known of a veiled child is known after a piece of its run too. -/
theorem StintLeft.known {r : World V × Progress V} (h : StintLeft σ κ v w r)
    (hw : σ.left.who w.children w.waiters child.name) (hn : child.runs ≤ runsOf w i) :
    σ.left.who r.1.children r.1.waiters child.name ∧ child.runs ≤ runsOf r.1 i := by
  rw [runsOf, h.children, h.waiters]
  exact ⟨hw, hn⟩

/-- What follows a piece of a run of a veiled child. -/
theorem closeTurn_left {r : World V × Progress V} (hstint : StintLeft σ κ v w r)
    (hi : σ.left.child i) (hc : child.Veiled σ σ.left p)
    (hw : σ.left.who w.children w.waiters child.name) (hn : child.runs ≤ runsOf w i)
    (rounds : Nat) : Paired σ κ (r.1.closeTurn i child rounds r.2) v := by
  have honce := afterOnce_left hi hc hstint
  obtain ⟨hw, hn⟩ := hstint.known hw hn
  have htame := hc.work
  unfold World.closeTurn
  cases hwork : child.work with
  | periodic pace runs =>
    rw [hwork] at htame
    dsimp only
    rcases hr : r.1.afterFiring i child pace r.2 with ⟨w₁, after⟩
    obtain ⟨h₁, hagain⟩ := hstint.paired.again_left hi hc hw hn pace hstint.tame hr
    cases after with
    | settled => exact h₁
    | again =>
      obtain ⟨hw₁, hn₁⟩ := hagain rfl
      exact h₁.periodicRounds_left hi hc hw₁ hn₁ htame rounds
  | _ => exact honce

theorem suspendedTurn_left (h : Paired σ κ w v) (hi : σ.left.child i) (hc : child.Veiled σ σ.left p)
    (hw : σ.left.who w.children w.waiters child.name) (hn : child.runs ≤ runsOf w i) (on : Wait)
    {rest : List (Step V)} (ht : ∀ x ∈ rest, x.Tame σ) :
    Paired σ κ (w.suspendedTurn i child on rest) v :=
  closeTurn_left (h.resumeRun_left hc.cell hw on ht) hi hc hw hn turnRounds

/-- The turn of a veiled child. -/
theorem childTurn_left (h : Paired σ κ w v) (hi : σ.left.child i) (hκ : ¬ ∃ j, κ i j) :
    Paired σ κ (w.childTurn i) v := by
  unfold World.childTurn
  cases hx : w.children[i]? with
  | none => exact h
  | some child =>
    have hc := h.veiledLeft i child hx hi
    have hw : σ.left.who w.children w.waiters child.name := .inl ⟨i, child, hi, hx, rfl⟩
    have htame := hc.work
    have hn : child.runs ≤ runsOf w i := by rw [runsOf, hx]; exact Nat.le_refl _
    dsimp only
    cases hst : child.stage with
    | created => exact h.firstTurn_left hi hc hw hn
    | scheduled due =>
      cases hwork : child.work with
      | delayed due' body =>
        rw [hwork] at htame
        exact h.delayedTurn_left hi hc hw due htame
      | periodic pace runs =>
        rw [hwork] at htame
        dsimp only
        unfold World.periodicTurn
        split
        · exact h.finish_left hi hc _
        · split
          · exact h.parkChild_left hi (by simp)
          · exact h.periodicRounds_left hi hc hw hn htame turnRounds
      | _ => exact h
    | suspended on rest =>
      exact h.suspendedTurn_left hi hc hw hn on ((hc.stage on rest hst).resolve_left hκ)
    | stranded =>
      dsimp only
      split
      · exact h.finish_left hi hc _
      · exact h.parkChild_left hi (by simp)
    | ended => exact h

end Child

end Paired

end World

end TimedTasks

import TimedTasks.Proofs.Cancellation
import TimedTasks.Proofs.SideBySide
/-!
Paired runs. What waiters and watchers do on both sides leaves the states paired as what children do
does. So when both runs have come to rest, whatever the number of turns each of them took, they are
still paired; and so they are after every movement of the clock and every call.
-/

namespace TimedTasks.World.Paired

variable {V : Type} {σ : Pairing} {κ : Nat → Nat → Prop} {w v : World V} {e i j : Nat}
  {x y : Waiter V}

/-! ## The end of a waiter -/

/-- A waiter that is not veiled and has not ended, on both sides. -/
structure Pair (σ : Pairing) (w v : World V) (j : Nat) (x y : Waiter V) : Prop where
  left : w.waiters[j]? = some x
  right : v.waiters[j]? = some y
  name : x.name = y.name
  request : σ.Requests x.request y.request
  naming : σ.MayName x.name x.request

theorem Pair.of_eq {w' v' : World V} (hp : Pair σ w v j x y) (hw : w'.waiters = w.waiters)
    (hv : v'.waiters = v.waiters) : Pair σ w' v' j x y :=
  ⟨hw ▸ hp.left, hv ▸ hp.right, hp.name, hp.request, hp.naming⟩

theorem finishWaiter (h : Paired σ κ w v) (j : Nat) (name : String) {a b : Answer V} (hab : a = b) :
    Paired σ κ (w.finishWaiter j name a) (v.finishWaiter j name b) :=
  (h.modifyWaiter (f := fun x => { x with stage := .ended })
    (g := fun x => { x with stage := .ended }) (fun _ => ⟨rfl, rfl⟩) (fun _ => ⟨rfl, rfl⟩)
    fun _ _ _ _ hxy => ⟨hxy.name, hxy.request.imp (fun hr => ⟨hr.1, .ended⟩) id,
      (fun hs => by cases hs), (fun hs => absurd rfl hs), (fun hs => by cases hs),
      fun hs => absurd rfl hs⟩).note name (hab ▸ .same _)

theorem finishWaiter_left (h : Paired σ κ w v) (hx : w.waiters[j]? = some x)
    (hr : σ.left.request x.request) (a : Answer V) :
    Paired σ κ (w.finishWaiter j x.name a) v := by
  have hsigns : SameSigns w (w.modifyWaiter j fun x => { x with stage := .ended }) :=
    .waiters_modify fun _ => ⟨rfl, rfl⟩
  have h₁ := h.modifyWaiter_left hx hr (f := fun x => { x with stage := .ended })
    fun _ => ⟨rfl, rfl⟩
  exact h₁.note_left (Veil.who_mono hsigns.children hsigns.waiters (.inr ⟨j, x, hx, hr, rfl⟩)) _

theorem isTerminated_eq (h : Paired σ κ w v) (he : e ≠ σ.executor) :
    w.isTerminated e = v.isTerminated e := by
  rw [isTerminated, isTerminated, h.stateOf?_eq he]

theorem hasCome_eq (h : Paired σ κ w v) {on on' : Awaited} (ho : σ.Awaits on on') :
    w.hasCome on = v.hasCome on' := by
  cases ho with
  | cell hc => exact h.isSettled_eq hc
  | termination he => exact h.isTerminated_eq he
  | batch b =>
    have hrel := h.batch b
    simp only [hasCome]
    revert hrel
    generalize w.batches[b]? = p
    generalize v.batches[b]? = q
    rintro (hpq | _)
    · exact hpq.notified
    · rfl

theorem nameBatch (h : Paired σ κ w v) {name : String} (hn : ¬ σ.shuns (.batch name))
    {cs ds : List Nat} (hcs : List.Forall₂ σ.cell cs ds) (n : Nat) :
    Paired σ κ (w.nameBatch name n cs) (v.nameBatch name n ds) := by
  induction hcs generalizing w v n with
  | nil => exact h
  | cons hc _ ih =>
    exact ih (h.nameFuture (x := ⟨_, .plain⟩) (y := ⟨_, .plain⟩)
      (fun ho => hn (σ.batch_shuns _ _ ho)) ⟨hc, rfl⟩) (n + 1)

theorem reads_eq (h : Paired σ κ w v) {cs ds : List Nat} (hcs : List.Forall₂ σ.cell cs ds) :
    cs.map w.read? = ds.map v.read? := by
  induction hcs with
  | nil => rfl
  | cons hc _ ih => rw [List.map_cons, List.map_cons, h.read?_eq hc, ih]

theorem answerAll (h : Paired σ κ w v) (j : Nat) {name : String} (hn : ¬ σ.shuns (.batch name))
    {cs ds : List Nat} (hcs : List.Forall₂ σ.cell cs ds) :
    Paired σ κ (w.answerAll j name cs) (v.answerAll j name ds) := by
  have h₁ := h.nameBatch hn hcs 0
  exact h₁.finishWaiter j name (congrArg Answer.reads (h₁.reads_eq hcs))

theorem weave_of_forall {cs ds : List Nat} (hcs : List.Forall₂ σ.cell cs ds) :
    Weave σ.left.cell σ.right.cell σ.cell cs ds := by
  induction hcs with
  | nil => exact .nil
  | cons hc _ ih => exact .both hc ih

theorem conclude (h : Paired σ κ w v) (hp : Pair σ w v j x y) {on on' : Awaited}
    (ho : σ.Awaits on on') (inTime : Bool) :
    Paired σ κ (w.conclude j x on inTime) (v.conclude j y on' inTime) := by
  obtain ⟨hx, hy, hname, hreq, hn⟩ := hp
  obtain ⟨name, request, stage⟩ := x
  obtain ⟨name', request', stage'⟩ := y
  obtain rfl : name = name' := hname
  unfold World.conclude
  dsimp only at hreq hn ⊢
  cases hreq with
  | get hc bound =>
    dsimp only
    rw [h.read?_eq hc]
    split
    · exact h.finishWaiter j name rfl
    · exact h.finishWaiter j name rfl
  | termination he bound =>
    exact h.finishWaiter j name (congrArg Answer.flag (h.isTerminated_eq he))
  | invokeAll e bodies bound =>
    cases ho with
    | batch b =>
      have hrel := h.batch b
      dsimp only
      revert hrel
      generalize w.batches[b]? = p
      generalize v.batches[b]? = q
      rintro (hpq | _)
      · dsimp only
        split
        · exact h.answerAll j hn hpq.cells
        · exact ((h.cancelAll (weave_of_forall hpq.cells)).report _ _).answerAll j hn hpq.cells
      · exact h
    | _ => exact h
  | invokeAny e bodies bound =>
    cases ho with
    | batch b =>
      have hrel := h.batch b
      dsimp only
      revert hrel
      generalize w.batches[b]? = p
      generalize v.batches[b]? = q
      rintro (hpq | _)
      · rename_i p q
        have h₁ := h.cancelAll (weave_of_forall hpq.cells)
        have hres : anyResult p bound inTime = anyResult q bound inTime := by
          rw [anyResult, anyResult, hpq.winner, hpq.lastFailure]
        dsimp only
        rw [hpq.winner, hres]
        split
        · exact (h₁.report _ _).finishWaiter j name rfl
        · exact h₁.finishWaiter j name rfl
      · exact h
    | _ => exact h

theorem conclude_left (h : Paired σ κ w v) (hx : w.waiters[j]? = some x)
    (hr : σ.left.request x.request) (on : Awaited) (inTime : Bool) :
    Paired σ κ (w.conclude j x on inTime) v := by
  unfold World.conclude
  cases hreq : x.request with
  | get c bound =>
    dsimp only
    split
    · exact h.finishWaiter_left hx hr _
    · exact h.finishWaiter_left hx hr _
  | termination e bound => exact h.finishWaiter_left hx hr _
  | _ => rw [hreq] at hr; exact hr.elim

/-! ## The turn of a waiter -/

/-- A waiter goes on waiting. -/
theorem keepWaiting (h : Paired σ κ w v) (hp : Pair σ w v j x y) {on on' : Awaited}
    (ho : σ.Awaits on on') (deadline : Option Instant) :
    Paired σ κ
      ((w.modifyWaiter j fun y => { y with stage := .waiting on deadline }).suspend (.waiter j))
      ((v.modifyWaiter j fun y => { y with stage := .waiting on' deadline }).suspend
        (.waiter j)) := by
  have hw : SameSigns w (w.modifyWaiter j fun y => { y with stage := .waiting on deadline }) :=
    .waiters_modify fun _ => ⟨rfl, rfl⟩
  have hv : SameSigns v (v.modifyWaiter j fun y => { y with stage := .waiting on' deadline }) :=
    .waiters_modify fun _ => ⟨rfl, rfl⟩
  have h₁ := h.modifyWaiter (j := j) (f := fun y => { y with stage := .waiting on deadline })
    (g := fun y => { y with stage := .waiting on' deadline }) (fun _ => ⟨rfl, rfl⟩)
    (fun _ => ⟨rfl, rfl⟩) fun x' y' hx' hy' hxy => by
      obtain rfl := Option.some.inj (hp.left.symm.trans hx')
      obtain rfl := Option.some.inj (hp.right.symm.trans hy')
      refine ⟨hxy.name, hxy.request.imp (fun hr => ⟨hr.1, .waiting ho deadline⟩) id,
        (fun hs => by cases hs), fun _ => hp.naming, (fun hs => by cases hs), fun _ => ?_⟩
      exact hp.name ▸ hp.request.mayName hp.naming
  exact h₁.suspend
    ((Pairing.Refs.waiter hp.left hp.right hp.request).mono hw.waiters hv.waiters)

theorem checkWaiter (h : Paired σ κ w v) (hp : Pair σ w v j x y) {on on' : Awaited}
    (ho : σ.Awaits on on') (deadline : Option Instant) :
    Paired σ κ (w.checkWaiter j x on deadline) (v.checkWaiter j y on' deadline) := by
  unfold World.checkWaiter
  rw [h.hasCome_eq ho]
  split
  · exact h.conclude hp ho true
  · cases deadline with
    | none => exact h.keepWaiting hp ho none
    | some t =>
      dsimp only
      rw [h.now_eq]
      split
      · exact h.conclude hp ho false
      · exact h.keepWaiting hp ho (some t)

theorem checkWaiter_left (h : Paired σ κ w v) (hx : w.waiters[j]? = some x)
    (hr : σ.left.request x.request) (on : Awaited) (deadline : Option Instant) :
    Paired σ κ (w.checkWaiter j x on deadline) v := by
  have hsigns : SameSigns w (w.modifyWaiter j fun y => { y with stage := .waiting on deadline }) :=
    .waiters_modify fun _ => ⟨rfl, rfl⟩
  have hwait : Paired σ κ ((w.modifyWaiter j fun y => { y with
      stage := .waiting on deadline }).suspend (.waiter j)) v :=
    (h.modifyWaiter_left hx hr (f := fun y => { y with stage := .waiting on deadline })
      fun _ => ⟨rfl, rfl⟩).suspend_left
        (Veil.ref_mono (r := .waiter j) hsigns.requests ⟨x, hx, hr⟩)
  unfold World.checkWaiter
  split
  · exact h.conclude_left hx hr on true
  · cases deadline with
    | none => exact hwait
    | some t =>
      dsimp only
      split
      · exact h.conclude_left hx hr on false
      · exact hwait

theorem addBatchChildren (h : Paired σ κ w v) (ha : σ.Admits e) {bodies : List (Body V)}
    {work : Body V → Work V} (hwork : ∀ body, σ.Polite body.mentions → σ.Ahead 0 (work body))
    (hp : σ.Polite (Body.mentionsOf bodies)) (name : String) (n : Nat) :
    Paired σ κ (w.addBatchChildren e name work n bodies).1
        (v.addBatchChildren e name work n bodies).1 ∧
      List.Forall₂ σ.cell (w.addBatchChildren e name work n bodies).2
        (v.addBatchChildren e name work n bodies).2 := by
  induction bodies generalizing w v n with
  | nil => exact ⟨h, .nil⟩
  | cons body bodies ih =>
    have hbody : σ.Ahead 0 (work body) := hwork body fun m hm =>
      hp m (by simp [Body.mentionsOf, hm])
    obtain ⟨h₁, hc⟩ := h.addChild ha hbody (name ++ "." ++ toString n) none
    obtain ⟨h₂, hcs⟩ := ih h₁ (fun m hm => hp m (by simp [Body.mentionsOf, hm])) (n + 1)
    exact ⟨h₂, .cons hc hcs⟩

theorem addBatchChildren_waiters (w : World V) (e : Nat) (name : String) (work : Body V → Work V)
    (n : Nat) (bodies : List (Body V)) :
    (w.addBatchChildren e name work n bodies).1.waiters = w.waiters := by
  induction bodies generalizing w n with
  | nil => rfl
  | cons body bodies ih => exact ih _ _

theorem startBatch (h : Paired σ κ w v) (hp : Pair σ w v j x y) (ha : σ.Admits e)
    {bodies : List (Body V)} {work : Nat → Body V → Work V}
    (hwork : ∀ b body, σ.Polite body.mentions → σ.Ahead 0 (work b body))
    (hbodies : σ.Polite (Body.mentionsOf bodies)) (bound : Option Duration) :
    Paired σ κ (w.startBatch j x e work bodies bound) (v.startBatch j y e work bodies bound) := by
  have hlen := h.batches.length_eq
  obtain ⟨h₁, hcells⟩ := h.addBatchChildren ha (hwork w.batches.length) hbodies x.name 0
  have h₂ : Paired σ κ (w.openBatch e x.name work bodies) (v.openBatch e y.name work bodies) := by
    unfold World.openBatch
    rw [← hp.name, ← hlen]
    exact { h₁ with batches := h₁.batches.append ⟨hcells, rfl, rfl, rfl, rfl⟩ }
  have hp₂ : Pair σ (w.openBatch e x.name work bodies) (v.openBatch e y.name work bodies) j x y :=
    hp.of_eq (addBatchChildren_waiters ..) (addBatchChildren_waiters ..)
  have h₃ := h₂.checkWaiter hp₂ (.batch w.batches.length)
    (bound.bind (Instant.after? (w.openBatch e x.name work bodies).now))
  unfold World.startBatch
  dsimp only
  rw [← h₂.now_eq, ← hlen]
  exact h₃

theorem addCancelledCells (h : Paired σ κ w v) (n : Nat) :
    Paired σ κ (w.addCancelledCells n).1 (v.addCancelledCells n).1 ∧
      List.Forall₂ σ.cell (w.addCancelledCells n).2 (v.addCancelledCells n).2 := by
  induction n generalizing w v with
  | zero => exact ⟨h, .nil⟩
  | succ n ih =>
    obtain ⟨h₁, hc⟩ := h.addCell { outcome := some .cancelled }
    obtain ⟨h₂, hcs⟩ := ih h₁
    exact ⟨h₂, .cons hc hcs⟩

theorem beginAll (h : Paired σ κ w v) (hp : Pair σ w v j x y) (ha : σ.Admits e)
    {bodies : List (Body V)} (bound : Option Duration) (hn : ¬ σ.shuns (.batch x.name))
    (hbodies : σ.Polite (Body.mentionsOf bodies)) :
    Paired σ κ (w.beginAll j x e bodies bound) (v.beginAll j y e bodies bound) := by
  have h₁ := h.report (.invokeAllCalled (w.nameOf e) bodies.length bound)
    (.invokeAllCalled (v.nameOf e) bodies.length bound)
  have hp₁ : Pair σ (w.report (.invokeAllCalled (w.nameOf e) bodies.length bound))
    (v.report (.invokeAllCalled (v.nameOf e) bodies.length bound)) j x y := hp.of_eq rfl rfl
  unfold World.beginAll
  dsimp only
  rw [h₁.isRunning_eq ha]
  split
  · obtain ⟨h₂, herr⟩ := h₁.reject e
    rw [hp.name]
    exact h₂.finishWaiter j _ (congrArg Answer.error herr)
  · split
    · obtain ⟨h₂, hcells⟩ := (h₁.report .cancelledUpFront .cancelledUpFront).addCancelledCells
        bodies.length
      rw [← hp.name]
      exact h₂.answerAll j hn hcells
    · split
      · rw [← hp.name]
        exact h₁.answerAll j hn .nil
      · exact h₁.startBatch hp₁ ha (fun _ _ => id) hbodies bound

theorem beginAny (h : Paired σ κ w v) (hp : Pair σ w v j x y) (ha : σ.Admits e)
    {bodies : List (Body V)} (bound : Option Duration)
    (hbodies : σ.Polite (Body.mentionsOf bodies)) :
    Paired σ κ (w.beginAny j x e bodies bound) (v.beginAny j y e bodies bound) := by
  have h₁ := h.report (.invokeAnyCalled (w.nameOf e) bodies.length bound)
    (.invokeAnyCalled (v.nameOf e) bodies.length bound)
  have hp₁ : Pair σ (w.report (.invokeAnyCalled (w.nameOf e) bodies.length bound))
    (v.report (.invokeAnyCalled (v.nameOf e) bodies.length bound)) j x y := hp.of_eq rfl rfl
  unfold World.beginAny
  dsimp only
  rw [h₁.isRunning_eq ha]
  split
  · rw [hp.name]
    exact h₁.finishWaiter j _ rfl
  · split
    · obtain ⟨h₂, herr⟩ := h₁.reject e
      rw [hp.name]
      exact h₂.finishWaiter j _ (congrArg Answer.error herr)
    · split
      · rw [hp.name]
        exact h₁.finishWaiter j _ rfl
      · exact h₁.startBatch hp₁ ha (fun _ _ => id) hbodies bound

theorem beginWaiter (h : Paired σ κ w v) (hp : Pair σ w v j x y) (hb : σ.MayBegin x.request) :
    Paired σ κ (w.beginWaiter j x) (v.beginWaiter j y) := by
  have hreq := hp.request
  have hn := hp.naming
  unfold World.beginWaiter
  revert hreq hb hn
  generalize x.request = q
  generalize y.request = q'
  intro hb hreq hn
  cases hreq with
  | get hc bound =>
    dsimp only
    rw [← h.now_eq]
    exact h.checkWaiter hp (.cell hc) _
  | @termination e he bound =>
    have h₁ := h.report (.awaitTerminationCalled (w.nameOf e) bound)
      (.awaitTerminationCalled (v.nameOf e) bound)
    dsimp only
    rw [← h₁.now_eq]
    exact h₁.checkWaiter (hp.of_eq rfl rfl) (.termination he) _
  | invokeAll e bodies bound => exact h.beginAll hp hb.1 bound hn hb.2
  | invokeAny e bodies bound => exact h.beginAny hp hb.1 bound hb.2

theorem beginWaiter_left (h : Paired σ κ w v) (hx : w.waiters[j]? = some x)
    (hr : σ.left.request x.request) : Paired σ κ (w.beginWaiter j x) v := by
  unfold World.beginWaiter
  cases hq : x.request with
  | get c bound => exact h.checkWaiter_left hx hr _ _
  | termination e bound =>
    exact (h.report_left (.awaitTerminationCalled (w.nameOf e) bound)).checkWaiter_left hx hr _ _
  | _ => rw [hq] at hr; exact hr.elim

/-- The turn of a waiter on both sides. -/
theorem waiterTurn (h : Paired σ κ w v) (hx : w.waiters[j]? = some x) (hy : v.waiters[j]? = some y)
    (hr : σ.Requests x.request y.request) : Paired σ κ (w.waiterTurn j) (v.waiterTurn j) := by
  have hxy := h.waiters.get_both rfl hx hy
  have hstage := h.waiterStage hx hy hr
  have pair (hn : x.stage ≠ .ended) : Pair σ w v j x y := ⟨hx, hy, hxy.name, hr, hxy.naming hn⟩
  unfold World.waiterTurn
  rw [hx, hy]
  dsimp only
  generalize hs : x.stage = s at hstage
  generalize y.stage = t at hstage
  cases hstage with
  | created => exact h.beginWaiter (pair (by simp [hs])) (hxy.begins hs)
  | waiting ho deadline => exact h.checkWaiter (pair (by simp [hs])) ho deadline
  | ended => exact h

theorem waiterTurn_left (h : Paired σ κ w v) (hx : w.waiters[j]? = some x)
    (hr : σ.left.request x.request) : Paired σ κ (w.waiterTurn j) v := by
  unfold World.waiterTurn
  rw [hx]
  dsimp only
  split
  · exact h.beginWaiter_left hx hr
  · exact h.checkWaiter_left hx hr _ _
  · exact h

/-! ## Turns -/

theorem watcherTurn (h : Paired σ κ w v) (he : e ≠ σ.executor) :
    Paired σ κ (w.watcherTurn e) (v.watcherTurn e) := by
  unfold World.watcherTurn
  rw [h.isDrained_eq he]
  split
  · exact h.markTerminated he
  · exact h.suspend (.watcher he)

theorem watcherTurn_left (h : Paired σ κ w v)
    (hd : w.isDrained σ.executor = true → w.isRunning σ.executor = false) :
    Paired σ κ (w.watcherTurn σ.executor) v := by
  unfold World.watcherTurn
  split
  · rename_i hdrained
    exact h.markTerminated_left fun _ => hd hdrained
  · exact h.suspend_left (r := .watcher σ.executor) rfl

end TimedTasks.World.Paired

namespace TimedTasks

open World

variable {V : Type} {σ : Pairing} {f : Focus} {w v w' v' : World V} {e i : Nat}

/-- Whether a child is settled, or runs once and has begun to. -/
def World.Past (w : World V) (i : Nat) : Prop :=
  ∃ child, w.children[i]? = some child ∧ (w.isSettled child.cell = true ∨
    child.work.kind ≠ .periodic ∧ ∃ t, (t, .called child.cell) ∈ w.history)

theorem World.Later.past (hl : Later w w') (h : w.Past i) : w'.Past i := by
  obtain ⟨child, hc, h⟩ := h
  obtain ⟨child', hc', hkept⟩ := hl.children i child hc
  refine ⟨child', hc', ?_⟩
  rw [hkept.cell, hkept.work]
  exact h.imp hl.isSettled fun ⟨hk, t, ht⟩ => ⟨hk, t, hl.history.subset ht⟩

/-- Such a child starts no run any more. -/
theorem Reached.doneStarting (hr : Reached f w) (h : w.Past i) (hb : f.body? ≠ some i)
    {child : Child V} (hc : w.children[i]? = some child) (hn : child.hasEnded = false) :
    w.DoneStarting child := by
  obtain ⟨x, hx, h⟩ := h
  obtain rfl := Option.some.inj (hc.symm.trans hx)
  have hsettled (hs : w.isSettled child.cell = true) : w.DoneStarting child := by
    obtain ⟨cell, hcell⟩ : ∃ cell, w.cells[child.cell]? = some cell :=
      ⟨_, List.getElem?_eq_getElem (hr.owned.cell_lt hc)⟩
    have ho : cell.outcome.isSome = true := by simpa [isSettled, outcomeOf, hcell] using hs
    exact .inl (by simp [isSignalled, hcell, (hr.tended.tends hc hcell).signalled hn ho])
  rcases h with hs | ⟨hk, t, ht⟩
  · exact hsettled hs
  · cases ho : w.outcomeOf child.cell with
    | some o => exact hsettled (by rw [isSettled, ho]; rfl)
    | none =>
      have hway : w.underWay child.cell = true := by
        by_contra hway
        exact hr.not_called hc hk ho (Bool.eq_false_iff.mpr hway) t ht
      exact .inr ⟨hk, hr.suspended_of_running hc hn hb
        ((hr.phased child (List.mem_of_getElem? hc) ho).mp hway)⟩

/-- An executor without children that has closed is not running. -/
theorem Reached.not_running_of_drained (hr : Reached f w) (hd : w.isDrained e = true) :
    w.isRunning e = false := by
  refine Bool.eq_false_iff.mpr fun hrun => ?_
  obtain ⟨x, hx, hs⟩ := isRunning_iff.mp hrun
  have hclosed : x.closed = true := by
    have : x.closed = true ∧ x.tracked = 0 := by simpa [isDrained, hx] using hd
    exact this.1
  exact (hr.steered.steered hx).closed hclosed hs

theorem World.turn_of_ready {r : TaskRef} {rest : List TaskRef} (hr : w.ready = r :: rest) :
    w.turn = { w with ready := rest }.taskTurn r := by
  unfold turn
  rw [hr]

/-- The state at the beginning of a turn. -/
theorem Reached.take (hr : Reached (.caller none) w) {r : TaskRef} {rest : List TaskRef}
    (hready : w.ready = r :: rest) : Reached (.turn r) { w with ready := rest } :=
  hr.op (.take hready)

/-- Two runs side by side, between two turns. -/
structure Abreast (σ : Pairing) (w v : World V) : Prop where
  paired : Paired σ nobody w v
  left : Reached (.caller none) w
  right : Reached (.caller none) v
  past : ∀ i j, σ.past i j → w.Past i ∧ v.Past j

namespace Abreast

theorem flip (h : Abreast σ w v) : Abreast σ.flip v w :=
  ⟨h.paired.flip, h.right, h.left, fun j i hij => (h.past i j hij).symm⟩

/-- A veiled task takes its turn. -/
theorem taskTurn_left {r : TaskRef} (hp : Paired σ nobody w v) (hr : Reached (.turn r) w)
    (hl : σ.left.ref w.waiters r) : Paired σ nobody (w.taskTurn r) v := by
  cases r with
  | child i => exact hp.childTurn_left hl (by rintro ⟨j, hj⟩; exact hj)
  | waiter j =>
    obtain ⟨x, hx, hq⟩ := hl
    exact hp.waiterTurn_left hx hq
  | watcher e =>
    obtain rfl : e = σ.executor := hl
    exact hp.watcherTurn_left hr.not_running_of_drained

/-- Two tasks that stand for each other take their turns. -/
theorem taskTurn {r r' : TaskRef} (hp : Paired σ nobody w v) (hr : Reached (.turn r) w)
    (hpast : ∀ i j, σ.past i j → w.Past i) (hrel : σ.Refs w.waiters v.waiters r r') :
    Paired σ nobody (w.taskTurn r) (v.taskTurn r') := by
  cases hrel with
  | child hi =>
    exact hp.childTurn hi id fun h child hc hn =>
      hr.doneStarting (hpast _ _ h) (by simp [Focus.body?]) hc hn
  | waiter hx hy hq => exact hp.waiterTurn hx hy hq
  | watcher he => exact hp.watcherTurn he

/-- The first task on the left is veiled. -/
theorem turn_left {r : TaskRef} {rest : List TaskRef} (h : Abreast σ w v)
    (hready : w.ready = r :: rest) (hr : σ.left.ref w.waiters r)
    (hrest : Weave (σ.left.ref w.waiters) (σ.right.ref v.waiters) (σ.Refs w.waiters v.waiters)
      rest v.ready) : Abreast σ w.turn v where
  paired := by
    rw [turn_of_ready hready]
    exact taskTurn_left (w := { w with ready := rest }) { h.paired with ready := hrest }
      (h.left.take hready) hr
  left := turn_leads.reached h.left
  right := h.right
  past i j hij := (h.past i j hij).imp_left (turn_leads h.left).ops.later.past

/-- The first task on the right is veiled. -/
theorem turn_right {r : TaskRef} {rest : List TaskRef} (h : Abreast σ w v)
    (hready : v.ready = r :: rest) (hr : σ.right.ref v.waiters r)
    (hrest : Weave (σ.left.ref w.waiters) (σ.right.ref v.waiters) (σ.Refs w.waiters v.waiters)
      w.ready rest) : Abreast σ w v.turn :=
  (h.flip.turn_left hready hr (hrest.flip.mono (fun _ => id) (fun _ => id)
    fun _ _ hab => hab.flip)).flip

/-- The first tasks on both sides stand for each other. -/
theorem turn_both {r r' : TaskRef} {rest rest' : List TaskRef} (h : Abreast σ w v)
    (hready : w.ready = r :: rest) (hready' : v.ready = r' :: rest')
    (hr : σ.Refs w.waiters v.waiters r r')
    (hrest : Weave (σ.left.ref w.waiters) (σ.right.ref v.waiters) (σ.Refs w.waiters v.waiters)
      rest rest') : Abreast σ w.turn v.turn where
  paired := by
    rw [turn_of_ready hready, turn_of_ready hready']
    exact taskTurn (w := { w with ready := rest }) (v := { v with ready := rest' })
      { h.paired with ready := hrest } (h.left.take hready) (fun i j hij => (h.past i j hij).1) hr
  left := turn_leads.reached h.left
  right := turn_leads.reached h.right
  past i j hij := (h.past i j hij).imp (turn_leads h.left).ops.later.past
    (turn_leads h.right).ops.later.past

theorem turns_of_nil {n : Nat} (hready : w.ready = []) : w.turns n = w := by
  cases n <;> simp [World.turns, hready]

/-- A run that comes to rest takes its first turn, and comes to rest in one turn less. -/
theorem turns_of_cons {n : Nat} {r : TaskRef} {rest : List TaskRef} (hready : w.ready = r :: rest)
    (hw : (w.turns n).ready = []) : ∃ k, n = k + 1 ∧ w.turns n = w.turn.turns k := by
  cases n with
  | zero => simp [World.turns, hready] at hw
  | succ n => exact ⟨n, rfl, by rw [World.turns, if_neg (by simp [hready])]⟩

/-- When both runs have come to rest they are still side by side, however many turns each took. -/
theorem turns {n m : Nat} (h : Abreast σ w v) (hw : (w.turns n).ready = [])
    (hv : (v.turns m).ready = []) : Abreast σ (w.turns n) (v.turns m) := by
  induction hk : n + m using Nat.strongRecOn generalizing w v n m with
  | ind k ih =>
    have hweave := h.paired.ready
    generalize hl : w.ready = l at hweave
    generalize hl' : v.ready = l' at hweave
    cases hweave with
    | nil =>
      rw [turns_of_nil hl, turns_of_nil hl']
      exact h
    | left hr hrest =>
      obtain ⟨n, rfl, hn⟩ := turns_of_cons hl hw
      rw [hn] at hw ⊢
      exact ih (n + m) (by omega) (h.turn_left hl hr (hl' ▸ hrest)) hw hv rfl
    | right hr hrest =>
      obtain ⟨m, rfl, hm⟩ := turns_of_cons hl' hv
      rw [hm] at hv ⊢
      exact ih (n + m) (by omega) (h.turn_right hl' hr (hl ▸ hrest)) hw hv rfl
    | both hr hrest =>
      obtain ⟨n, rfl, hn⟩ := turns_of_cons hl hw
      obtain ⟨m, rfl, hm⟩ := turns_of_cons hl' hv
      rw [hn] at hw ⊢
      rw [hm] at hv ⊢
      exact ih (n + m) (by omega) (h.turn_both hl hl' hr hrest) hw hv rfl

theorem quiesce (h : Abreast σ w v) (hw : w.quiesce.ready = []) (hv : v.quiesce.ready = []) :
    Abreast σ w.quiesce v.quiesce := h.turns hw hv

end Abreast

end TimedTasks

import TimedTasks.Proofs.Likeness
/-!
What single operations do to paired states. Done on both sides to what stands for each other, or on
one side to what is veiled there, an operation leaves the states paired.
-/

namespace TimedTasks.World.Paired

variable {V : Type} {σ : Pairing} {κ : Nat → Nat → Prop} {w v : World V} {a b e i j : Nat}
  {r r' : TaskRef}

/-! ## What tasks wait for -/

section Waiting

theorem stageOf?_rel (h : Paired σ κ w v) (hi : σ.child i j) :
    Option.Rel σ.Stages (w.stageOf? i) (v.stageOf? j) := by
  unfold stageOf?
  cases hx : w.children[i]? with
  | none => rw [h.children.get_none hi hx]; exact .none
  | some x =>
    obtain ⟨y, hy, hxy⟩ := h.child hi hx
    rw [hy]
    exact .some hxy.stage

/-- Waiters that are not veiled are at the same stage. -/
theorem waiterStage (h : Paired σ κ w v) {x y : Waiter V} (hx : w.waiters[j]? = some x)
    (hy : v.waiters[j]? = some y) (hr : σ.Requests x.request y.request) :
    σ.WaiterStages x.stage y.stage := by
  rcases (h.waiters.get_both rfl hx hy).request with ⟨-, hs⟩ | ⟨hl, -⟩
  · exact hs
  · exact absurd hl hr.not_left

theorem awaitedCell?_rel (h : Paired σ κ w v) (hr : σ.Refs w.waiters v.waiters r r') :
    Option.Rel σ.cell (w.awaitedCell? r) (v.awaitedCell? r') := by
  cases hr with
  | @child i j hi =>
    simp only [awaitedCell?]
    have hs := h.stageOf?_rel hi
    revert hs
    generalize w.stageOf? i = s
    generalize v.stageOf? j = t
    rintro (hs | _)
    · cases hs with
      | suspended hw rest =>
        cases hw with
        | cell hc joined => exact .some hc
        | _ => exact .none
      | _ => exact .none
    · exact .none
  | @waiter j x y hx hy hreq =>
    simp only [awaitedCell?, waiterStage?, hx, hy, Option.map_some]
    have hs := h.waiterStage hx hy hreq
    revert hs
    generalize x.stage = s
    generalize y.stage = t
    intro hs
    cases hs with
    | waiting ho deadline =>
      cases ho with
      | cell hc => exact .some hc
      | _ => exact .none
    | _ => exact .none
  | watcher he => exact .none

theorem deadline?_eq (h : Paired σ κ w v) (hr : σ.Refs w.waiters v.waiters r r') :
    w.deadline? r = v.deadline? r' := by
  cases hr with
  | @child i j hi =>
    simp only [deadline?]
    have hs := h.stageOf?_rel hi
    revert hs
    generalize w.stageOf? i = s
    generalize v.stageOf? j = t
    rintro (hs | _)
    · cases hs with
      | suspended hw rest => cases hw <;> rfl
      | _ => rfl
    · rfl
  | @waiter j x y hx hy hreq =>
    simp only [deadline?, waiterStage?, hx, hy, Option.map_some]
    have hs := h.waiterStage hx hy hreq
    revert hs
    generalize x.stage = s
    generalize y.stage = t
    intro hs
    cases hs <;> rfl
  | watcher he => rfl

theorem isDue_eq (h : Paired σ κ w v) (hr : σ.Refs w.waiters v.waiters r r') :
    w.isDue r = v.isDue r' := by
  rw [isDue, isDue, h.deadline?_eq hr, h.now_eq]

theorem awaits_cell (h : Paired σ κ w v) (hr : σ.Refs w.waiters v.waiters r r') (hc : σ.cell a b) :
    (w.awaitedCell? r == some a) = (v.awaitedCell? r' == some b) := by
  have hs := h.awaitedCell?_rel hr
  revert hs
  generalize w.awaitedCell? r = s
  generalize v.awaitedCell? r' = t
  rintro (hs | _)
  · rw [Bool.eq_iff_iff]
    simpa using h.cells.sharp.iff hc hs
  · rfl

theorem awaits_veiled (h : Paired σ κ w v) (hr : σ.Refs w.waiters v.waiters r r')
    (ha : σ.left.cell a) : (w.awaitedCell? r == some a) = false := by
  have hs := h.awaitedCell?_rel hr
  revert hs
  generalize w.awaitedCell? r = s
  generalize v.awaitedCell? r' = t
  rintro (hs | _)
  · refine beq_eq_false_iff_ne.mpr ?_
    rintro ⟨⟩
    exact ha _ hs
  · rfl

theorem ownsCell_eq (h : Paired σ κ w v) (hr : σ.Refs w.waiters v.waiters r r') (hc : σ.cell a b) :
    w.ownsCell a r = v.ownsCell b r' := by
  cases hr with
  | @child i j hi =>
    simp only [ownsCell]
    cases hx : w.children[i]? with
    | none => rw [h.children.get_none hi hx]; rfl
    | some x =>
      obtain ⟨y, hy, hxy⟩ := h.child hi hx
      rw [hy, Bool.eq_iff_iff]
      simpa using h.cells.sharp.iff hc hxy.cell
  | _ => rfl

theorem ownsCell_veiled (h : Paired σ κ w v) (hr : σ.Refs w.waiters v.waiters r r')
    (ha : σ.left.cell a) : w.ownsCell a r = false := by
  cases hr with
  | @child i j hi =>
    simp only [ownsCell]
    cases hx : w.children[i]? with
    | none => rfl
    | some x =>
      obtain ⟨y, hy, hxy⟩ := h.child hi hx
      refine beq_eq_false_iff_ne.mpr ?_
      rintro ⟨⟩
      exact ha _ hxy.cell
  | _ => rfl

theorem awaits_eq (h : Paired σ κ w v) (hr : σ.Refs w.waiters v.waiters r r') {on : Awaited}
    (hc : ∀ c, on ≠ .cell c) : w.awaits on r = v.awaits on r' := by
  cases hr with
  | @waiter j x y hx hy hreq =>
    simp only [awaits, waiterStage?, hx, hy, Option.map_some]
    have hs := h.waiterStage hx hy hreq
    revert hs
    generalize x.stage = s
    generalize y.stage = t
    intro hs
    cases hs with
    | waiting ho deadline =>
      cases ho with
      | cell hab => simp [(hc _).symm]
      | _ => rfl
    | _ => rfl
  | _ => rfl

theorem awaits_termination_veiled (h : Paired σ κ w v) (hr : σ.Refs w.waiters v.waiters r r') :
    w.awaits (.termination σ.executor) r = false := by
  cases hr with
  | @waiter j x y hx hy hreq =>
    simp only [awaits, waiterStage?, hx, Option.map_some]
    have hs := h.waiterStage hx hy hreq
    revert hs
    generalize x.stage = s
    generalize y.stage = t
    intro hs
    cases hs with
    | waiting ho deadline =>
      cases ho with
      | termination he => simpa using he
      | _ => rfl
    | _ => rfl
  | _ => rfl

end Waiting

/-! ## Waking -/

theorem wakeReaders (h : Paired σ κ w v) (hc : σ.cell a b) :
    Paired σ κ (w.wakeReaders a) (v.wakeReaders b) :=
  h.wake fun _ _ hr => h.awaits_cell hr hc

theorem wakeReaders_left (h : Paired σ κ w v) (ha : σ.left.cell a) :
    Paired σ κ (w.wakeReaders a) v :=
  h.wake_left fun _ _ hr => h.awaits_veiled hr ha

theorem wakeOwner (h : Paired σ κ w v) (hc : σ.cell a b) :
    Paired σ κ (w.wakeOwner a) (v.wakeOwner b) :=
  h.wake fun _ _ hr => h.ownsCell_eq hr hc

theorem wakeOwner_left (h : Paired σ κ w v) (ha : σ.left.cell a) : Paired σ κ (w.wakeOwner a) v :=
  h.wake_left fun _ _ hr => h.ownsCell_veiled hr ha

theorem wakeDue (h : Paired σ κ w v) : Paired σ κ w.wakeDue v.wakeDue :=
  h.wake fun _ _ hr => h.isDue_eq hr

theorem wakeBatch (h : Paired σ κ w v) (b : Nat) : Paired σ κ (w.wakeBatch b) (v.wakeBatch b) :=
  h.wake fun _ _ hr => h.awaits_eq hr (by simp)

theorem wakeTermination (h : Paired σ κ w v) (e : Nat) :
    Paired σ κ (w.wakeTermination e) (v.wakeTermination e) :=
  h.wake fun _ _ hr => h.awaits_eq hr (by simp)

theorem wakeTermination_left (h : Paired σ κ w v) :
    Paired σ κ (w.wakeTermination σ.executor) v :=
  h.wake_left fun _ _ hr => h.awaits_termination_veiled hr

theorem wakeWatcher (h : Paired σ κ w v) (e : Nat) :
    Paired σ κ (w.wakeWatcher e) (v.wakeWatcher e) := by
  refine h.wake fun r r' hr => ?_
  cases hr <;> rfl

theorem wakeWatcher_left (h : Paired σ κ w v) : Paired σ κ (w.wakeWatcher σ.executor) v := by
  refine h.wake_left fun r r' hr => ?_
  cases hr with
  | watcher he => simpa using he
  | _ => rfl

/-! ## Cells -/

theorem settle (h : Paired σ κ w v) (hc : σ.cell a b) (o : Outcome V) :
    Paired σ κ (w.settle a o) (v.settle b o) := by
  unfold World.settle
  rw [h.isSettled_eq hc]
  split
  · exact h
  · exact (h.modifyCell hc _).wakeReaders hc

theorem settle_left (h : Paired σ κ w v) (ha : σ.left.cell a) (o : Outcome V) :
    Paired σ κ (w.settle a o) v := by
  unfold World.settle
  split
  · exact h
  · exact (h.modifyCell_left ha _).wakeReaders_left ha

theorem signal (h : Paired σ κ w v) (hc : σ.cell a b) : Paired σ κ (w.signal a) (v.signal b) := by
  unfold World.signal
  rw [h.isSignalled_eq hc]
  split
  · exact h
  · exact (h.modifyCell hc _).wakeOwner hc

theorem signal_left (h : Paired σ κ w v) (ha : σ.left.cell a) : Paired σ κ (w.signal a) v := by
  unfold World.signal
  split
  · exact h
  · exact (h.modifyCell_left ha _).wakeOwner_left ha

theorem cancel (h : Paired σ κ w v) (hc : σ.cell a b) (interrupt : Bool) :
    Paired σ κ (w.cancel a interrupt).1 (v.cancel b interrupt).1 := by
  unfold World.cancel
  rw [h.cancellable_eq hc]
  split
  · exact (((h.modifyCell hc _).settle hc _).signal hc).record (.cancelled hc)
  · exact h

theorem cancel_left (h : Paired σ κ w v) (ha : σ.left.cell a) (interrupt : Bool) :
    Paired σ κ (w.cancel a interrupt).1 v := by
  unfold World.cancel
  split
  · exact (((h.modifyCell_left ha _).settle_left ha _).signal_left ha).record_left ha
  · exact h

theorem cancelAll {cs ds : List Nat} (h : Paired σ κ w v)
    (hcs : Weave σ.left.cell σ.right.cell σ.cell cs ds) :
    Paired σ κ (w.cancelAll cs).1 (v.cancelAll ds).1 := by
  induction hcs generalizing w v with
  | nil => exact h
  | left ha _ ih => exact ih (h.cancel_left ha true)
  | right hb _ ih => exact ih (h.flip.cancel_left hb true).flip
  | both hc _ ih => exact ih (h.cancel hc true)

theorem signalAll {cs ds : List Nat} (h : Paired σ κ w v)
    (hcs : Weave σ.left.cell σ.right.cell σ.cell cs ds) :
    Paired σ κ (w.signalAll cs) (v.signalAll ds) := by
  induction hcs generalizing w v with
  | nil => exact h
  | left ha _ ih => exact ih (h.signal_left ha)
  | right hb _ ih => exact ih (h.flip.signal_left hb).flip
  | both hc _ ih => exact ih (h.signal hc)

theorem endRun (h : Paired σ κ w v) (hc : σ.cell a b) : Paired σ κ (w.endRun a) (v.endRun b) :=
  h.modifyCell hc _

theorem endRun_left (h : Paired σ κ w v) (ha : σ.left.cell a) : Paired σ κ (w.endRun a) v :=
  h.modifyCell_left ha _

theorem settleRun (h : Paired σ κ w v) (hc : σ.cell a b) (r : RunEnd V) :
    Paired σ κ (w.settleRun a r) (v.settleRun b r) := by
  cases r with
  | panicked => exact h
  | _ => exact h.settle hc _

theorem settleRun_left (h : Paired σ κ w v) (ha : σ.left.cell a) (r : RunEnd V) :
    Paired σ κ (w.settleRun a r) v := by
  cases r with
  | panicked => exact h
  | _ => exact h.settle_left ha _

/-! ## New tasks -/

theorem addCell (h : Paired σ κ w v) (cell : Cell V) :
    Paired σ κ (w.addCell cell).1 (v.addCell cell).1 ∧
      σ.cell (w.addCell cell).2 (v.addCell cell).2 :=
  ⟨{ h with cells := h.cells.append rfl }, h.cells.fresh 0⟩

theorem addChild (h : Paired σ κ w v) (ha : σ.Admits e) {work : Work V}
    (hp : σ.Ahead 0 work) (name : String) (mark : Option Mark) :
    Paired σ κ (w.addChild e name work mark).1 (v.addChild e name work mark).1 ∧
      σ.cell (w.addChild e name work mark).2 (v.addChild e name work mark).2 := by
  have hc := h.cells.fresh 0
  have hi : σ.child w.children.length v.children.length := h.children.fresh 0
  have hw : SameSigns w (w.addChild e name work mark).1 := .of_concat rfl rfl
  have hv : SameSigns v (v.addChild e name work mark).1 := .of_concat rfl rfl
  obtain ⟨hready, -, hlog⟩ := h.of_signs hw hv
  refine ⟨{ h with
    cells := h.cells.append rfl
    children := h.children.append {
      executor := rfl, cell := hc, name := rfl, work := rfl, stage := .created, runs := rfl
      rest := fun _ _ hs => by cases hs
      since := Nat.le_of_eq (h.anew 0)
      goesOn := .inr ⟨(h.anew 0).symm ▸ hp, fun hs he => absurd hs (ha he)⟩ }
    executors := h.executors.modify rfl fun x y _ _ hxy => { hxy with
      registry := hxy.registry.concat hi
      exact := fun he => by
        obtain ⟨hstate, htracked, hclosed, hcounters⟩ := hxy.exact he
        exact ⟨hstate, congrArg (· + 1) htracked, hclosed, by rw [hcounters]⟩ }
    ready := h.ready.concat (.child hi)
    here := Nat.lt_of_lt_of_eq h.here (List.length_modify ..).symm
    log := hlog
    anew := fun n => by
      simpa [World.addChild, World.addCell, World.modifyExecutor, World.enqueue, Nat.add_assoc,
        Nat.add_comm 1 n] using h.anew (n + 1)
    veiledLeft := fun k child hk hl => ?_
    veiledRight := fun k child hk hr => ?_ }, hc⟩
  · rcases getElem?_concat_iff.mp hk with hk | ⟨rfl, -⟩
    · exact h.veiledLeft k child hk hl
    · exact absurd hi (hl _)
  · rcases getElem?_concat_iff.mp hk with hk | ⟨rfl, -⟩
    · exact h.veiledRight k child hk hr
    · exact absurd hi (hr _)

theorem reject (h : Paired σ κ w v) (e : Nat) :
    Paired σ κ (w.reject e).1 (v.reject e).1 ∧ (w.reject e).2 = (v.reject e).2 := by
  have hcounted := h.modifyExecutor (e := e)
    (f := fun x => { x with counters := { x.counters with rejected := x.counters.rejected + 1 } })
    (g := fun x => { x with counters := { x.counters with rejected := x.counters.rejected + 1 } })
    fun x y hxy => { hxy with
      exact := fun he => by
        obtain ⟨hstate, htracked, hclosed, hcounters⟩ := hxy.exact he
        exact ⟨hstate, htracked, hclosed, by rw [hcounters]⟩ }
  exact ⟨hcounted.report _ _, congrArg TaskError.rejected (h.nameOf_eq e)⟩

/-- What handing in a task has come to on both sides. -/
def Admission (σ : Pairing) (κ : Nat → Nat → Prop) (r r' : World V × Except TaskError Nat) : Prop :=
  Paired σ κ r.1 r'.1 ∧
    ((∃ a b, r.2 = .ok a ∧ r'.2 = .ok b ∧ σ.cell a b) ∨ ∃ err, r.2 = .error err ∧ r'.2 = .error err)

theorem enrol (h : Paired σ κ w v) (ha : σ.Admits e) {work : Work V}
    (hp : σ.Ahead 0 work) (name : String) (mark : Option Mark) :
    Admission σ κ (w.enrol e name work mark) (v.enrol e name work mark) := by
  unfold World.enrol
  rw [h.isRunning_eq ha]
  split
  · obtain ⟨hadded, hc⟩ := h.addChild ha hp name mark
    exact ⟨hadded, .inl ⟨_, _, rfl, rfl, hc⟩⟩
  · obtain ⟨hrejected, herr⟩ := h.reject e
    exact ⟨hrejected, .inr ⟨_, rfl, congrArg Except.error herr.symm⟩⟩

theorem bodyForRun_polite {runs : List (Body V)} (hp : σ.Polite (Body.mentionsOf runs)) (n : Nat) :
    σ.Polite (bodyForRun runs n).mentions := fun m hm => hp m (mem_mentionsOf_of_bodyForRun hm)

theorem schedule (h : Paired σ κ w v) (ha : σ.Admits e) {body : Body V}
    (hp : σ.Polite body.mentions) (name : String) (delay : Duration) :
    Admission σ κ (w.schedule e name delay body) (v.schedule e name delay body) := by
  unfold World.schedule
  rw [h.now_eq, h.originOf_eq]
  split
  · exact ⟨h, .inr ⟨_, rfl, rfl⟩⟩
  · rename_i due _
    exact h.enrol ha (show σ.Ahead 0 (.delayed due body) from hp) name _

theorem scheduleRepeating (h : Paired σ κ w v) (ha : σ.Admits e) {runs : List (Body V)}
    (hp : σ.Polite (Body.mentionsOf runs)) (name : String) (pace : Pace) (initial : Duration) :
    Admission σ κ (w.scheduleRepeating e name pace initial runs)
      (v.scheduleRepeating e name pace initial runs) := by
  have h₁ := h.report (.repeatingCalled (w.nameOf e) initial pace)
    (.repeatingCalled (v.nameOf e) initial pace)
  unfold World.scheduleRepeating
  dsimp only
  split
  · exact ⟨h₁, .inr ⟨_, rfl, rfl⟩⟩
  · rw [h₁.now_eq, h₁.originOf_eq]
    split
    · exact ⟨h₁, .inr ⟨_, rfl, rfl⟩⟩
    · have hahead : σ.Ahead 0 (.periodic pace runs) := fun n _ => bodyForRun_polite hp n
      exact h₁.enrol ha hahead name _

/-! ## The end of a child -/

theorem setStage (h : Paired σ κ w v) (hi : σ.child i j) {s t : Stage V} (hs : σ.Stages s t)
    (hr : ∀ on rest, s = .suspended on rest → σ.Polite (Step.mentionsOf rest)) :
    Paired σ κ (w.setStage i s) (v.setStage j t) :=
  h.modifyChild hi (fun _ => rfl) (fun _ => rfl) fun _ _ hxy => { hxy with
    stage := hs, rest := fun on rest he => .inr (hr on rest he) }

theorem setStage_left (h : Paired σ κ w v) (hi : σ.left.child i) {s : Stage V}
    (hs : ∀ on rest, s = .suspended on rest → ∀ x ∈ rest, x.Tame σ) :
    Paired σ κ (w.setStage i s) v :=
  h.modifyChild_left hi (fun _ => rfl) fun _ _ hx => { hx with
    stage := fun on rest he => .inr (hs on rest he) }

theorem release_left (h : Paired σ κ w v) : Paired σ κ (w.release σ.executor) v := by
  have h₁ := h.modifyExecutor_left (e := σ.executor)
    (f := fun x => { x with tracked := x.tracked - 1 })
    fun x y _ hxy => { hxy with exact := fun he => absurd rfl he }
  unfold World.release
  dsimp only
  split
  · exact h₁.wakeWatcher_left
  · exact h₁

theorem release (h : Paired σ κ w v) (e : Nat) : Paired σ κ (w.release e) (v.release e) := by
  by_cases he : e = σ.executor
  · subst he
    exact h.release_left.flip.release_left.flip
  · have h₁ := h.modifyExecutor (e := e) (f := fun x => { x with tracked := x.tracked - 1 })
      (g := fun x => { x with tracked := x.tracked - 1 }) fun x y hxy => { hxy with
        exact := fun he => by
          obtain ⟨hstate, htracked, hclosed, hcounters⟩ := hxy.exact he
          exact ⟨hstate, congrArg (· - 1) htracked, hclosed, hcounters⟩ }
    unfold World.release
    dsimp only
    rw [h₁.isDrained_eq he]
    split
    · exact h₁.wakeWatcher e
    · exact h₁

theorem endChild (h : Paired σ κ w v) (hi : σ.child i j) :
    Paired σ κ (w.endChild i) (v.endChild j) := by
  unfold World.endChild
  cases hx : w.children[i]? with
  | none => rw [h.children.get_none hi hx]; exact h
  | some x =>
    obtain ⟨y, hy, hxy⟩ := h.child hi hx
    rw [hy]
    have h₁ := h.cancel hxy.cell true
    have hending := h₁.endingOf_eq hxy.cell
    dsimp only
    rw [hending, ← hxy.executor]
    refine Paired.release (Paired.setStage (Paired.report (h₁.modifyExecutor fun p q hpq => ?_) _ _)
      hi .ended (by simp)) _
    refine { hpq with
      registry := hpq.registry.erase (fun hl => hl _ hi) (fun hr => hr _ hi) fun i' j' hij =>
        h.children.sharp.iff hi hij
      exact := fun he => ?_ }
    obtain ⟨hstate, htracked, hclosed, hcounters⟩ := hpq.exact he
    exact ⟨hstate, htracked, hclosed, by rw [hcounters]⟩

theorem endChild_left (h : Paired σ κ w v) (hi : σ.left.child i) : Paired σ κ (w.endChild i) v := by
  unfold World.endChild
  cases hx : w.children[i]? with
  | none => exact h
  | some x =>
    have hveiled := h.veiledLeft i x hx hi
    have h₁ := h.cancel_left hveiled.cell true
    dsimp only
    rw [hveiled.executor]
    refine Paired.release_left (Paired.setStage_left
      (Paired.report_left (h₁.modifyExecutor_left fun p q _ hpq => ?_) _) hi (by simp))
    exact { hpq with
      registry := hpq.registry.erase_left hi
      exact := fun he => absurd rfl he }

end TimedTasks.World.Paired

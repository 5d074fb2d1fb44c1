import TimedTasks.Proofs.Counterparts
import TimedTasks.Proofs.Halt
/-!
What calls do to paired states, and what they answer. A call that refers to nothing that is veiled
answers alike on both sides; a call that touches only what is veiled may be made on one side alone.
-/

namespace TimedTasks.World

variable {V : Type}

/-! ## Shutdowns -/

theorem shutdown_of_not_running {w : World V} {e : Nat} (hrun : w.isRunning e = false) :
    w.shutdown e = (w.report (.shutdownCalled (w.nameOf e))).record (.asked e) := by
  have hrun' : (w.report (.shutdownCalled (w.nameOf e))).isRunning e = false := hrun
  unfold shutdown
  dsimp only
  rw [beginShutdown_of_not_running hrun']
  split
  · rename_i heq
    exact absurd heq (by simp)
  · rename_i heq _
    exact (congrArg Prod.fst heq).symm

/-- When the tasks have been seen to, the executor is not running any more. -/
theorem policies_isRunning {w : World V} {e : Nat} {x : Executor} (hx : w.executors[e]? = some x)
    (s : Settings) (is : List Nat) :
    ((w.shuttingDown e).applyPolicies s is).isRunning e = false := by
  rw [isRunning, stateOf?, (applyPolicies_frame ..).2, shuttingDown_executor hx]
  rfl

theorem cancelAll_executors (w : World V) (cs : List Nat) :
    (w.cancelAll cs).1.executors = w.executors := by
  induction cs generalizing w with
  | nil => rfl
  | cons c cs ih => exact (ih _).trans (w.cancel_frame c true).2.1

theorem signalAll_executors (w : World V) (cs : List Nat) :
    (w.signalAll cs).executors = w.executors := by
  induction cs generalizing w with
  | nil => rfl
  | cons c cs ih => exact (ih _).trans (w.signal_frame c).2.1

/-- When the tasks have been cancelled, the executor is not running any more. -/
theorem halted_isRunning (w : World V) (e n : Nat) :
    ((((w.halting e).cancelAll ((w.halting e).registeredCells e)).1.signalAll
      ((w.halting e).registeredCells e)).report (.shutDownNow n)).isRunning e = false := by
  have hexecutors := (signalAll_executors ((w.halting e).cancelAll
    ((w.halting e).registeredCells e)).1 ((w.halting e).registeredCells e)).trans
      (cancelAll_executors ..)
  have hrun := (w.halting_frame e).2.2
  rw [isRunning, stateOf?] at hrun ⊢
  rw [← hrun]
  exact congrArg (fun l : List Executor => l[e]?.map (·.state) == some .running) hexecutors

namespace Paired

variable {σ : Pairing} {κ : Nat → Nat → Prop} {w v : World V} {a b e i j : Nat}

/-! ## The end of an executor's life -/

theorem markTerminated_left (h : Paired σ κ w v)
    (hr : ¬ σ.sealed → w.isRunning σ.executor = false) :
    Paired σ κ (w.markTerminated σ.executor) v := by
  have h₁ := h.modifyExecutor_left (e := σ.executor)
    (f := fun x => { x with state := .terminated }) fun x y hx hxy => { hxy with
      running := fun he hs => by
        have hrun := hxy.running he hs
        have hnot : x.state ≠ .running := by simpa [isRunning, stateOf?, hx] using hr hs
        simp [hrun.not.mp hnot]
      exact := fun he => absurd rfl he }
  exact ((h₁.record_left (x := .terminated σ.executor) rfl).wakeTermination_left).report_left _

theorem markTerminated (h : Paired σ κ w v) (he : e ≠ σ.executor) :
    Paired σ κ (w.markTerminated e) (v.markTerminated e) := by
  have h₁ := h.modifyExecutor (e := e) (f := fun x => { x with state := .terminated })
    (g := fun x => { x with state := .terminated }) fun x y hxy => { hxy with
      running := fun he' => absurd he' he
      exact := fun he => ⟨rfl, (hxy.exact he).2⟩ }
  exact ((h₁.record (.terminated e)).wakeTermination e).report _ _

theorem beginDrain_left (h : Paired σ κ w v)
    (hr : ¬ σ.sealed → w.isRunning σ.executor = false) :
    Paired σ κ (w.beginDrain σ.executor) v := by
  have h₁ := h.modifyExecutor_left (e := σ.executor)
    (f := fun x => { x with closed := true }) fun x y hx hxy => { hxy with
      exact := fun he => absurd rfl he }
  have hr₁ (hs : ¬ σ.sealed) :
      (w.modifyExecutor σ.executor fun x => { x with closed := true }).isRunning σ.executor =
        false := by
    have := hr hs
    simp only [isRunning, stateOf?, World.modifyExecutor, List.getElem?_modify_eq] at this ⊢
    cases hx : w.executors[σ.executor]? with
    | none => rfl
    | some x => simpa [hx] using this
  unfold World.beginDrain
  dsimp only
  split
  · exact h₁.markTerminated_left hr₁
  · exact h₁.enqueue_left rfl

theorem beginDrain (h : Paired σ κ w v)
    (hr : ¬ σ.sealed → w.isRunning e = false ∧ v.isRunning e = false) :
    Paired σ κ (w.beginDrain e) (v.beginDrain e) := by
  by_cases he : e = σ.executor
  · subst he
    exact ((h.beginDrain_left fun hs => (hr hs).1).flip.beginDrain_left fun hs => (hr hs).2).flip
  · have h₁ := h.modifyExecutor (e := e) (f := fun x => { x with closed := true })
      (g := fun x => { x with closed := true }) fun x y hxy => { hxy with
        exact := fun he => ⟨(hxy.exact he).1, (hxy.exact he).2.1, rfl, (hxy.exact he).2.2.2⟩ }
    unfold World.beginDrain
    dsimp only
    rw [h₁.isDrained_eq he]
    split
    · exact h₁.markTerminated he
    · exact h₁.enqueue (.watcher he)

theorem beginShutdown (h : Paired σ κ w v) (ha : σ.Admits e) :
    Paired σ κ (w.beginShutdown e).1 (v.beginShutdown e).1 ∧
      (w.beginShutdown e).2 = (v.beginShutdown e).2 := by
  have h₁ := h.record (.asked e)
  unfold World.beginShutdown
  dsimp only
  rw [h₁.isRunning_eq ha]
  split
  · refine ⟨(h₁.modifyExecutor fun x y hxy => ?_).record (.draining e), rfl⟩
    exact { hxy with
      running := fun _ _ => Iff.rfl
      exact := fun he => ⟨rfl, (hxy.exact he).2⟩ }
  · exact ⟨h₁, rfl⟩

theorem seeTo (h : Paired σ κ w v) (s : Settings) (hi : σ.child i j) :
    Paired σ κ (w.seeTo s i) (v.seeTo s j) := by
  unfold World.seeTo
  cases hx : w.children[i]? with
  | none => rw [h.children.get_none hi hx]; exact h
  | some x =>
    obtain ⟨y, hy, hxy⟩ := h.child hi hx
    rw [hy]
    dsimp only
    rw [hxy.work, cancel_snd, cancel_snd, h.cancellable_eq hxy.cell]
    split
    · split
      · exact (h.cancel hxy.cell false).report _ _
      · exact h.cancel hxy.cell false
    · exact h

theorem seeTo_left (h : Paired σ κ w v) (s : Settings) (hi : σ.left.child i) :
    Paired σ κ (w.seeTo s i) v := by
  unfold World.seeTo
  cases hx : w.children[i]? with
  | none => exact h
  | some x =>
    have hveiled := h.veiledLeft i x hx hi
    dsimp only
    split
    · split
      · exact (h.cancel_left hveiled.cell false).report_left _
      · exact h.cancel_left hveiled.cell false
    · exact h

theorem applyPolicies (h : Paired σ κ w v) (s : Settings) {is js : List Nat}
    (hreg : Weave σ.left.child σ.right.child σ.child is js) :
    Paired σ κ (w.applyPolicies s is) (v.applyPolicies s js) := by
  induction hreg generalizing w v with
  | nil => exact h
  | left hi _ ih => rw [applyPolicies_cons]; exact ih (h.seeTo_left s hi)
  | right hj _ ih => rw [applyPolicies_cons]; exact ih (h.flip.seeTo_left s hj).flip
  | both hij _ ih => rw [applyPolicies_cons, applyPolicies_cons]; exact ih (h.seeTo s hij)

theorem registeredCells (h : Paired σ κ w v) (e : Nat) :
    Weave σ.left.cell σ.right.cell σ.cell (w.registeredCells e) (v.registeredCells e) := by
  have cellsOf : ∀ {is js : List Nat}, Weave σ.left.child σ.right.child σ.child is js →
      Weave σ.left.cell σ.right.cell σ.cell (is.filterMap fun i => w.children[i]?.map (·.cell))
        (js.filterMap fun j => v.children[j]?.map (·.cell)) := by
    intro is js hreg
    induction hreg with
    | nil => exact .nil
    | @left i _ _ hi _ ih =>
      cases hx : w.children[i]? with
      | none => simpa [List.filterMap_cons, hx] using ih
      | some x => simpa [List.filterMap_cons, hx] using ih.left (h.veiledLeft i x hx hi).cell
    | @right j _ _ hj _ ih =>
      cases hx : v.children[j]? with
      | none => simpa [List.filterMap_cons, hx] using ih
      | some x => simpa [List.filterMap_cons, hx] using ih.right (h.veiledRight j x hx hj).cell
    | @both i j _ _ hij _ ih =>
      cases hx : w.children[i]? with
      | none => simpa [List.filterMap_cons, hx, h.children.get_none hij hx] using ih
      | some x =>
        obtain ⟨y, hy, hxy⟩ := h.child hij hx
        simpa [List.filterMap_cons, hx, hy] using ih.both hxy.cell
  unfold World.registeredCells
  cases hx : w.executors[e]? with
  | none => rw [h.executors.get_none rfl hx]; exact .nil
  | some x =>
    obtain ⟨y, hy, hxy⟩ := h.executor hx
    rw [hy]
    exact cellsOf hxy.registry

theorem shuttingDown (h : Paired σ κ w v) (e : Nat) :
    Paired σ κ (w.shuttingDown e) (v.shuttingDown e) := by
  have h₁ := (h.report (.shutdownCalled (w.nameOf e)) (.shutdownCalled (v.nameOf e))).record
    (.asked e)
  have h₂ := h₁.modifyExecutor (e := e) (f := fun x => { x with state := .draining })
    (g := fun x => { x with state := .draining }) fun x y hxy => { hxy with
      running := fun _ _ => Iff.rfl
      exact := fun he => ⟨rfl, (hxy.exact he).2⟩ }
  exact (h₂.record (.draining e)).report _ _

theorem shutdown (h : Paired σ κ w v) (ha : σ.Admits e) :
    Paired σ κ (w.shutdown e) (v.shutdown e) := by
  cases hrun : w.isRunning e with
  | false =>
    rw [shutdown_of_not_running hrun, shutdown_of_not_running ((h.isRunning_eq ha).symm.trans hrun)]
    exact (h.report _ _).record (.asked e)
  | true =>
    obtain ⟨x, hx, -⟩ := isRunning_iff.mp hrun
    obtain ⟨y, hy, hxy⟩ := h.executor hx
    rw [shutdown_of_running hx hrun, shutdown_of_running hy ((h.isRunning_eq ha).symm.trans hrun),
      hxy.settings]
    refine ((h.shuttingDown e).applyPolicies _ hxy.registry).beginDrain fun _ => ?_
    exact ⟨policies_isRunning hx _ _, policies_isRunning hy _ _⟩

theorem shutdownNow (h : Paired σ κ w v) (ha : σ.Admits e) :
    Paired σ κ (w.shutdownNow e) (v.shutdownNow e) := by
  obtain ⟨h₁, hmoved⟩ := (h.report (.shutdownNowCalled (w.nameOf e))
    (.shutdownNowCalled (v.nameOf e))).beginShutdown ha
  have hcells := h₁.registeredCells e
  unfold World.shutdownNow
  dsimp only
  rw [hmoved]
  split
  · exact (((h₁.cancelAll hcells).signalAll hcells).report _ _).beginDrain fun _ =>
      ⟨halted_isRunning w e _, halted_isRunning v e _⟩
  · exact ((h₁.cancelAll hcells).signalAll hcells).report _ _

/-! ## Names -/

/-- Two results that are both there and alike, or both the same error. -/
inductive Fits {ε α β : Type} (rel : α → β → Prop) : Except ε α → Except ε β → Prop
  | ok {a : α} {b : β} (h : rel a b) : Fits rel (.ok a) (.ok b)
  | error (err : ε) : Fits rel (.error err) (.error err)

theorem Fits.bind {ε α β γ δ : Type} {rel : α → β → Prop} {rel' : γ → δ → Prop}
    {x : Except ε α} {y : Except ε β} {f : α → Except ε γ} {g : β → Except ε δ}
    (h : Fits rel x y) (hfg : ∀ a b, rel a b → Fits rel' (f a) (g b)) :
    Fits rel' (x >>= f) (y >>= g) := by
  cases h with
  | ok h => exact hfg _ _ h
  | error err => exact .error err

theorem Fits.eq {ε α : Type} {x y : Except ε α} (h : Fits Eq x y) : x = y := by
  cases h with
  | ok h => rw [h]
  | error err => rfl

theorem future_fits (h : Paired σ κ w v) {name : String} (hn : ¬ σ.shuns (.future name)) :
    Fits σ.Handles (w.future name) (v.future name) := by
  have hrel := h.futureNames name hn
  unfold World.future
  revert hrel
  generalize w.futureNames.get? name = x
  generalize v.futureNames.get? name = y
  rintro (hab | _)
  · exact .ok hab
  · exact .error _

theorem handleMark?_eq (h : Paired σ κ w v) {x y : Handle} (hxy : σ.Handles x y) :
    w.handleMark? x = v.handleMark? y := by
  rw [handleMark?, handleMark?, hxy.kind, h.markOf?_eq hxy.cell]

theorem timed_fits (h : Paired σ κ w v) {name : String} (hn : ¬ σ.shuns (.future name)) :
    Fits (fun p q => σ.Handles p.1 q.1 ∧ p.2 = q.2) (w.timed name) (v.timed name) := by
  refine (h.future_fits hn).bind fun x y hxy => ?_
  rw [h.handleMark?_eq hxy]
  cases v.handleMark? y with
  | none => exact .error _
  | some m => exact .ok ⟨hxy, rfl⟩

theorem delayIn_eq (h : Paired σ κ w v) (m : Mark) (u : TimeUnit) :
    w.delayIn m u = v.delayIn m u := by
  rw [delayIn, delayIn, delayNanos, delayNanos, h.now_eq]

theorem compareDelayed_eq (h : Paired σ κ w v) (m : Mark) (delay : Int) (due : Option Instant) :
    w.compareDelayed m delay due = v.compareDelayed m delay due := by
  cases due with
  | none => exact congrArg (compare · delay) (h.delayIn_eq m .nanoseconds)
  | some t => rfl

theorem futureView_eq (h : Paired σ κ w v) {x y : Handle} (hxy : σ.Handles x y) :
    w.futureView x = v.futureView y := by
  simp only [futureView, futureDebug, h.isSettled_eq hxy.cell, h.endingOf_eq hxy.cell,
    h.markOf?_eq hxy.cell, hxy.kind, h.delayIn_eq]

theorem compareFutures_eq (h : Paired σ κ w v) {n m : String} (hn : ¬ σ.shuns (.future n))
    (hm : ¬ σ.shuns (.future m)) : w.compareFutures n m = v.compareFutures n m := by
  refine ((h.timed_fits hn).bind ?_).eq
  rintro ⟨x, p⟩ ⟨y, _⟩ ⟨hxy, rfl⟩
  refine (h.timed_fits hm).bind ?_
  rintro ⟨x', q⟩ ⟨y', _⟩ ⟨hxy', rfl⟩
  refine .ok ?_
  rw [hxy.kind, hxy'.kind, h.compareDelayed_eq, h.delayIn_eq]

theorem compareFixed_eq (h : Paired σ κ w v) {n : String} (hn : ¬ σ.shuns (.future n))
    (amount : Int) (unit : TimeUnit) (due : Option Duration) :
    w.compareFixed n amount unit due = v.compareFixed n amount unit due := by
  refine ((h.timed_fits hn).bind ?_).eq
  rintro ⟨x, m⟩ ⟨y, _⟩ ⟨-, rfl⟩
  cases due with
  | none => exact .ok (h.compareDelayed_eq ..)
  | some d =>
    dsimp only
    cases Instant.after? 0 d with
    | none => exact .error _
    | some t => exact .ok (h.compareDelayed_eq ..)

theorem sorted_eq (h : Paired σ κ w v) {names : List String}
    (hn : ∀ n ∈ names, ¬ σ.shuns (.future n)) : w.sorted names = v.sorted names := by
  have hmarks : (names.mapM fun n => do return (n, (← w.timed n).2)) =
      (names.mapM fun n => do return (n, (← v.timed n).2)) := by
    induction names with
    | nil => rfl
    | cons n names ih =>
      have hone : (do return (n, (← w.timed n).2) : Except Panic (String × Mark)) =
          do return (n, (← v.timed n).2) :=
        ((h.timed_fits (hn n List.mem_cons_self)).bind fun p q hpq => .ok (by rw [hpq.2])).eq
      rw [List.mapM_cons, List.mapM_cons, hone, ih fun m hm => hn m (List.mem_cons_of_mem _ hm)]
  rw [World.sorted, World.sorted, hmarks]

/-- A name is given to alike futures. -/
theorem nameFuture (h : Paired σ κ w v) {name : String} (hn : ¬ σ.own name) {x y : Handle}
    (hxy : σ.Handles x y) : Paired σ κ (w.nameFuture name x) (v.nameFuture name y) :=
  { h with
    futureNames := fun m hm => by
      simp only [World.nameFuture, Names.get?_put]
      split
      · exact .some hxy
      · exact h.futureNames m hm
    ownLeft := fun m z hm hz => by
      simp only [World.nameFuture, Names.get?_put] at hz
      split at hz
      · rename_i heq
        exact absurd hm (heq ▸ hn)
      · exact h.ownLeft m z hm hz
    ownRight := fun m z hm hz => by
      simp only [World.nameFuture, Names.get?_put] at hz
      split at hz
      · rename_i heq
        exact absurd hm (heq ▸ hn)
      · exact h.ownRight m z hm hz }

/-- A name of veiled tasks is given to one of them. -/
theorem nameFuture_left (h : Paired σ κ w v) {name : String} (hn : σ.own name) {x : Handle}
    (hx : σ.left.cell x.cell) : Paired σ κ (w.nameFuture name x) v :=
  { h with
    futureNames := fun m hm => by
      simp only [World.nameFuture, Names.get?_put]
      split
      · rename_i heq
        exact absurd (heq ▸ σ.own_shuns name hn) hm
      · exact h.futureNames m hm
    ownLeft := fun m z hm hz => by
      simp only [World.nameFuture, Names.get?_put] at hz
      split at hz
      · obtain rfl := Option.some.inj hz
        exact hx
      · exact h.ownLeft m z hm hz }

theorem Names.get?_erase {α : Type} (l : Names α) (name other : String) :
    (l.erase name).get? other = if other = name then none else l.get? other := by
  rw [Names.erase, Names.get?_filter l (· != name)]
  by_cases ho : other = name <;> simp [ho]

theorem forget (h : Paired σ κ w v) (name : String) :
    Paired σ κ { w with futureNames := w.futureNames.erase name }
      { v with futureNames := v.futureNames.erase name } :=
  { h with
    futureNames := fun m hm => by
      simp only [Names.get?_erase]
      split
      · exact .none
      · exact h.futureNames m hm
    ownLeft := fun m z hm hz => by
      simp only [Names.get?_erase] at hz
      split at hz
      · cases hz
      · exact h.ownLeft m z hm hz
    ownRight := fun m z hm hz => by
      simp only [Names.get?_erase] at hz
      split at hz
      · cases hz
      · exact h.ownRight m z hm hz }

theorem forget_left (h : Paired σ κ w v) {name : String} (hn : σ.shuns (.future name)) :
    Paired σ κ { w with futureNames := w.futureNames.erase name } v :=
  { h with
    futureNames := fun m hm => by
      simp only [Names.get?_erase]
      split
      · rename_i heq
        exact absurd (heq ▸ hn) hm
      · exact h.futureNames m hm
    ownLeft := fun m z hm hz => by
      simp only [Names.get?_erase] at hz
      split at hz
      · cases hz
      · exact h.ownLeft m z hm hz }

/-! ## Answers -/

/-- What a call has come to on both sides. -/
def Reply (σ : Pairing) (κ : Nat → Nat → Prop) (r r' : World V × Answer V) : Prop :=
  Paired σ κ r.1 r'.1 ∧ σ.Answers r.2 r'.2

theorem Reply.same (h : Paired σ κ w v) (x : Answer V) : Reply σ κ (w, x) (v, x) := ⟨h, .inl rfl⟩

theorem Reply.eq (h : Paired σ κ w v) {x y : Answer V} (hxy : x = y) : Reply σ κ (w, x) (v, y) :=
  ⟨h, .inl hxy⟩

/-- What tells of the life of an executor may differ if it is the one with veiled tasks. -/
theorem Reply.life (h : Paired σ κ w v) (ha : σ.Admits e) {x y : Answer V} (hx : x.IsLife)
    (hy : y.IsLife) (hxy : e ≠ σ.executor → x = y) : Reply σ κ (w, x) (v, y) := by
  by_cases he : e = σ.executor
  · exact ⟨h, .inr ⟨ha he, hx, hy⟩⟩
  · exact .eq h (hxy he)

theorem onExecutor (h : Paired σ κ w v) {name : String} (hn : ¬ σ.shuns (.executor name))
    {f g : Nat → World V × Answer V} (hfg : ∀ e, σ.Admits e → Reply σ κ (f e) (g e)) :
    Reply σ κ (w.onExecutor name f) (v.onExecutor name g) := by
  unfold World.onExecutor
  rw [← h.executor_eq]
  cases he : w.executor name with
  | error p => exact .same h _
  | ok e =>
    refine hfg e ?_
    rintro rfl hs
    refine hn (h.unnamed hs name ?_)
    rw [World.executor] at he
    revert he
    cases w.executorNames.get? name with
    | none => simp
    | some e => simp

theorem onFuture (h : Paired σ κ w v) {name : String} (hn : ¬ σ.shuns (.future name))
    {f g : Handle → World V × Answer V} (hfg : ∀ x y, σ.Handles x y → Reply σ κ (f x) (g y)) :
    Reply σ κ (w.onFuture name f) (v.onFuture name g) := by
  have hfits := h.future_fits hn
  unfold World.onFuture
  revert hfits
  generalize w.future name = x
  generalize v.future name = y
  rintro (hxy | _)
  · exact hfg _ _ hxy
  · exact .same h _

theorem answer (h : Paired σ κ w v) {α : Type} {x y : Except Panic α} {f g : α → Answer V}
    (hxy : Fits (fun a b => f a = g b) x y) : Reply σ κ (w.answer f x) (v.answer g y) := by
  cases hxy with
  | ok hab => exact .eq h hab
  | error p => exact .same h _

theorem answer_same (h : Paired σ κ w v) {α : Type} {x y : Except Panic α} (hxy : x = y)
    (f : α → Answer V) : Reply σ κ (w.answer f x) (v.answer f y) := by
  subst hxy
  cases x <;> exact .same h _

theorem Admission.accepted {name : String} (hn : ¬ σ.own name) (kind : HandleKind)
    {r r' : World V × Except TaskError Nat} (h : Admission σ κ r r') :
    Reply σ κ (World.accepted name kind r) (World.accepted name kind r') := by
  obtain ⟨w, x⟩ := r
  obtain ⟨v, y⟩ := r'
  obtain ⟨h, ⟨a, b, rfl, rfl, hc⟩ | ⟨err, rfl, rfl⟩⟩ := h
  · exact .same (h.nameFuture (x := ⟨a, kind⟩) (y := ⟨b, kind⟩) hn ⟨hc, rfl⟩) _
  · exact .same h _

theorem statsOf_eq (h : Paired σ κ w v) (he : e ≠ σ.executor) : w.statsOf e = v.statsOf e := by
  unfold statsOf
  cases hx : w.executors[e]? with
  | none => rw [h.executors.get_none rfl hx]
  | some x =>
    obtain ⟨y, hy, hxy⟩ := h.executor hx
    rw [hy]
    exact congrArg Counters.snapshot (hxy.exact he).2.2.2

theorem lifecycle_eq (h : Paired σ κ w v) (he : e ≠ σ.executor) :
    w.lifecycle e = v.lifecycle e := by
  rw [lifecycle, lifecycle, isShutdown, isShutdown, isTerminated, isTerminated, isRunning,
    isRunning, h.stateOf?_eq he]

theorem executorView_eq (h : Paired σ κ w v) (he : e ≠ σ.executor) :
    w.executorView e = v.executorView e := by
  simp only [executorView, h.nameOf_eq, h.stateOf?_eq he, h.statsOf_eq he, h.now_eq]

theorem create (h : Paired σ κ w v) (name : String) (document override : Option String)
    (keepPeriodic keepDelayed : Option Bool) :
    Reply σ κ (w.create name document override keepPeriodic keepDelayed)
      (v.create name document override keepPeriodic keepDelayed) := by
  unfold World.create
  cases chosenSettings document override keepPeriodic keepDelayed with
  | error err => exact .same h _
  | ok s =>
    have hlen := h.executors.length_eq
    have hnew : σ.executor ≠ w.executors.length := Nat.ne_of_lt h.here
    exact ⟨{ h with
        executors := h.executors.append {
          same := hlen, settings := rfl, origin := h.now_eq, registry := .nil
          keeps := fun he => absurd he.symm hnew
          running := fun he => absurd he.symm hnew
          exact := fun _ => ⟨rfl, rfl, rfl, rfl⟩ }
        executorNames := congrArg₂ (Names.put · name ·) h.executorNames hlen
        unnamed := fun hs m hm => by
          have hm : (w.executorNames.put name w.executors.length).get? m = some σ.executor := hm
          rw [Names.get?_put] at hm
          split at hm
          · exact absurd (Option.some.inj hm).symm hnew
          · exact h.unnamed hs m hm
        here := Nat.lt_of_lt_of_le h.here (by simp [addExecutor, World.report]) },
      .inl rfl⟩

/-! ## Waiters and threads -/

/-- A waiter is started that is veiled on neither side or on both. -/
theorem addWaiter (h : Paired σ κ w v) (name : String) {x y : Request V}
    (hxy : σ.Requests x y ∨ σ.left.request x ∧ σ.right.request y)
    (hb : σ.MayBegin x ∧ σ.MayBegin y) (hn : σ.MayName name x ∧ σ.MayName name y) :
    Paired σ κ (w.addWaiter name x) (v.addWaiter name y) := by
  have hlen := h.waiters.length_eq
  have hw : SameSigns w (w.addWaiter name x) := ⟨(SameSigns.refl w).children, Keeps.append
    (R := fun a b : Waiter V => b.name = a.name ∧ b.request = a.request) (fun _ => ⟨rfl, rfl⟩) _ _⟩
  have hv : SameSigns v (v.addWaiter name y) := ⟨(SameSigns.refl v).children, Keeps.append
    (R := fun a b : Waiter V => b.name = a.name ∧ b.request = a.request) (fun _ => ⟨rfl, rfl⟩) _ _⟩
  obtain ⟨hready, hwaiting, hlog⟩ := h.of_signs hw hv
  have hx : (w.addWaiter name x).waiters[w.waiters.length]? = some { name, request := x } :=
    List.getElem?_concat_length
  have hy : (v.addWaiter name y).waiters[w.waiters.length]? = some { name, request := y } :=
    hlen ▸ List.getElem?_concat_length
  exact { h with
    waiters := h.waiters.append
      ⟨rfl, hxy.imp (fun hr => ⟨hr, .created⟩) id, fun _ => hb.1, fun _ => hn.1, fun _ => hb.2,
        fun _ => hn.2⟩
    ready := by
      refine hready.append ?_
      rw [← hlen]
      rcases hxy with hr | ⟨hl, hr⟩
      · exact .both (.waiter hx hy hr) .nil
      · exact .left ⟨_, hx, hl⟩ (.right ⟨_, hy, hr⟩ .nil)
    waiting := hwaiting
    log := hlog
    waiterNames := congrArg₂ (Names.put · name ·) h.waiterNames hlen }

theorem abort (h : Paired σ κ w v) (name : String) : Reply σ κ (w.abort name) (v.abort name) := by
  unfold World.abort
  rw [← h.waiterNames]
  cases w.waiterNames.get? name with
  | none => exact .same h _
  | some j =>
    have h₁ := h.modifyWaiter (j := j) (f := fun x => { x with stage := .ended })
      (g := fun x => { x with stage := .ended }) (fun _ => ⟨rfl, rfl⟩) (fun _ => ⟨rfl, rfl⟩)
      fun x y _ _ hxy => ⟨hxy.name, hxy.request.imp (fun hr => ⟨hr.1, .ended⟩) id,
        (fun hs => by cases hs), (fun hs => absurd rfl hs), (fun hs => by cases hs),
        fun hs => absurd rfl hs⟩
    have hfilter := h₁.waiting.filter (p := (· != .waiter j)) (q := (· != .waiter j))
      fun r r' hr => by cases hr <;> rfl
    exact ⟨{ h₁ with
      waiterNames := rfl
      waiting := hfilter }, .inl rfl⟩

theorem blockingGet (h : Paired σ κ w v) (thread : String) (hc : σ.cell a b) :
    Reply σ κ (w.blockingGet thread a) (v.blockingGet thread b) := by
  unfold World.blockingGet
  rw [h.read?_eq hc]
  cases v.read? b with
  | some r => exact .same h _
  | none =>
    refine ⟨{ h with threadNames := fun n => ?_ }, .inl rfl⟩
    rw [Names.get?_put, Names.get?_put]
    split
    · exact .some hc
    · exact h.threadNames n

theorem threadJoin (h : Paired σ κ w v) (thread : String) :
    Reply σ κ (w.threadJoin thread) (v.threadJoin thread) := by
  have hrel := h.threadNames thread
  unfold World.threadJoin
  revert hrel
  generalize w.threadNames.get? thread = x
  generalize v.threadNames.get? thread = y
  rintro (hc | _)
  · dsimp only
    rw [h.read?_eq hc]
    split
    · refine ⟨{ h with threadNames := fun n => ?_ }, .inl rfl⟩
      rw [Names.get?_erase, Names.get?_erase]
      split
      · exact .none
      · exact h.threadNames n
    · exact .same h _
  · exact .same h _

/-! ## Calls -/

/-- A call that refers to nothing that is veiled does the same on both sides, and answers alike. -/
theorem perform (h : Paired σ κ w v) {c : Call V} (hp : σ.Polite c.mentions) :
    Reply σ κ (w.perform c) (v.perform c) := by
  have free (n : String) (hn : .future n ∈ c.mentions) : ¬ σ.own n := fun ho =>
    hp _ hn (σ.own_shuns n ho)
  cases c with
  | create executor document name keepPeriodic keepDelayed => exact h.create ..
  | execute executor task body =>
    have hbody : σ.Ahead 0 (.once .unwanted body) := fun m (hm : m ∈ body.mentions) =>
      hp m (by simp [Call.mentions, hm])
    refine h.onExecutor (hp _ (by simp [Call.mentions])) fun e ha => ?_
    have hadmit := h.enrol ha hbody task none
    unfold submit
    revert hadmit
    generalize w.enrol e task (.once .unwanted body) none = r
    generalize v.enrol e task (.once .unwanted body) none = r'
    obtain ⟨w', x⟩ := r
    obtain ⟨v', y⟩ := r'
    rintro ⟨h', ⟨a, b, rfl, rfl, -⟩ | ⟨err, rfl, rfl⟩⟩
    · exact .same h' _
    · exact .same h' _
  | submit executor future instead body =>
    have hbody : σ.Polite body.mentions := fun m hm => hp m (by simp [Call.mentions, hm])
    exact h.onExecutor (hp _ (by simp [Call.mentions])) fun e ha =>
      Admission.accepted (free _ (by simp [Call.mentions])) _
        (h.enrol ha (show σ.Ahead 0 (.once _ body) from hbody) future none)
  | schedule executor future delay body =>
    have hbody : σ.Polite body.mentions := fun m hm => hp m (by simp [Call.mentions, hm])
    exact h.onExecutor (hp _ (by simp [Call.mentions])) fun e ha =>
      Admission.accepted (free _ (by simp [Call.mentions])) _ (h.schedule ha hbody future delay)
  | repeating executor future pace initial runs =>
    have hbody : σ.Polite (Body.mentionsOf runs) := fun m hm => hp m (by simp [Call.mentions, hm])
    exact h.onExecutor (hp _ (by simp [Call.mentions])) fun e ha =>
      Admission.accepted (free _ (by simp [Call.mentions])) _
        (h.scheduleRepeating ha hbody future pace initial)
  | cancel future interrupt =>
    refine h.onFuture (hp _ (by simp [Call.mentions])) fun x y hxy => ?_
    have hgranted : (w.cancel x.cell interrupt).2 = (v.cancel y.cell interrupt).2 := by
      rw [cancel_snd, cancel_snd, h.cancellable_eq hxy.cell]
    exact .eq (h.cancel hxy.cell interrupt) (congrArg Answer.flag hgranted)
  | share future name =>
    exact h.onFuture (hp _ (by simp [Call.mentions])) fun x y hxy =>
      .same (h.nameFuture (free name (by simp [Call.mentions])) hxy) _
  | shareTask future name =>
    exact h.onFuture (hp _ (by simp [Call.mentions])) fun x y hxy =>
      .same (h.nameFuture (x := ⟨x.cell, .plain⟩) (y := ⟨y.cell, .plain⟩)
        (free name (by simp [Call.mentions])) ⟨hxy.cell, rfl⟩) _
  | forget future =>
    exact h.onFuture (hp _ (by simp [Call.mentions])) fun _ _ _ => .same (h.forget future) _
  | inspect future =>
    exact h.onFuture (hp _ (by simp [Call.mentions])) fun x y hxy =>
      .eq h (congrArg Answer.future (h.futureView_eq hxy))
  | delay future unit =>
    have hfits := h.timed_fits (hp (.future future) (by simp [Call.mentions]))
    cases unit with
    | none =>
      refine h.answer (.bind hfits ?_)
      rintro ⟨x, m⟩ ⟨y, _⟩ ⟨-, rfl⟩
      exact .ok (by simp [h.delayIn_eq])
    | some u =>
      refine h.answer (.bind hfits ?_)
      rintro ⟨x, m⟩ ⟨y, _⟩ ⟨-, rfl⟩
      exact .ok (by simp [h.delayIn_eq])
  | dueTime future =>
    refine h.answer (.bind (h.timed_fits (hp (.future future) (by simp [Call.mentions]))) ?_)
    rintro ⟨x, m⟩ ⟨y, _⟩ ⟨-, rfl⟩
    exact .ok rfl
  | compare n m =>
    exact h.answer_same (h.compareFutures_eq (hp (.future n) (by simp [Call.mentions]))
      (hp (.future m) (by simp [Call.mentions]))) _
  | compareFixed future amount unit due =>
    exact h.answer_same (h.compareFixed_eq (hp (.future future) (by simp [Call.mentions])) ..) _
  | sort futures =>
    exact h.answer_same (h.sorted_eq fun n hn =>
      hp (.future n) (by simp [Call.mentions, hn])) _
  | get waiter future bound =>
    exact h.onFuture (hp _ (by simp [Call.mentions])) fun x y hxy =>
      .same (h.addWaiter waiter (.inl (.get hxy.cell bound)) ⟨trivial, trivial⟩
        ⟨trivial, trivial⟩) _
  | awaitTermination waiter executor bound =>
    refine h.onExecutor (hp _ (by simp [Call.mentions])) fun e _ =>
      .same (h.addWaiter waiter (x := .termination e bound) (y := .termination e bound) ?_
        ⟨trivial, trivial⟩ ⟨trivial, trivial⟩) _
    by_cases he : e = σ.executor
    · exact .inr ⟨he, he⟩
    · exact .inl (.termination he bound)
  | invokeAll waiter executor bodies bound =>
    have hbodies : σ.Polite (Body.mentionsOf bodies) := fun m hm =>
      hp m (by simp [Call.mentions, hm])
    have hname : ¬ σ.shuns (.batch waiter) := hp _ (by simp [Call.mentions])
    exact h.onExecutor (hp _ (by simp [Call.mentions])) fun e ha =>
      .same (h.addWaiter waiter (.inl (.invokeAll e bodies bound)) ⟨⟨ha, hbodies⟩, ha, hbodies⟩
        ⟨hname, hname⟩) _
  | invokeAny waiter executor bodies bound =>
    have hbodies : σ.Polite (Body.mentionsOf bodies) := fun m hm =>
      hp m (by simp [Call.mentions, hm])
    exact h.onExecutor (hp _ (by simp [Call.mentions])) fun e ha =>
      .same (h.addWaiter waiter (.inl (.invokeAny e bodies bound)) ⟨⟨ha, hbodies⟩, ha, hbodies⟩
        ⟨trivial, trivial⟩) _
  | abort waiter => exact h.abort waiter
  | blockingGet thread future =>
    exact h.onFuture (hp _ (by simp [Call.mentions])) fun x y hxy => h.blockingGet thread hxy.cell
  | threadJoin thread => exact h.threadJoin thread
  | shutdown executor =>
    exact h.onExecutor (hp _ (by simp [Call.mentions])) fun e ha =>
      .life (h.shutdown ha) ha trivial trivial (h.shutdown ha).lifecycle_eq
  | shutdownNow executor =>
    refine h.onExecutor (hp _ (by simp [Call.mentions])) fun e ha =>
      .life (h.shutdownNow ha) ha trivial trivial fun he => ?_
    rw [isShutdown, isShutdown, isTerminated, isTerminated, (h.shutdownNow ha).isRunning_eq ha,
      (h.shutdownNow ha).stateOf?_eq he]
  | lifecycle executor =>
    exact h.onExecutor (hp _ (by simp [Call.mentions])) fun e ha =>
      .life h ha trivial trivial h.lifecycle_eq
  | describe executor =>
    exact h.onExecutor (hp _ (by simp [Call.mentions])) fun e ha =>
      .life h ha trivial trivial fun he => congrArg Answer.executor (h.executorView_eq he)
  | stats executor =>
    exact h.onExecutor (hp _ (by simp [Call.mentions])) fun e ha =>
      .life h ha trivial trivial fun he => congrArg Answer.stats (h.statsOf_eq he)

/-- A call that touches nothing but what is veiled may be made on one side alone. -/
theorem perform_left (h : Paired σ κ w v) {c : Call V} (ht : c.Tame σ) :
    Paired σ κ (w.perform c).1 v := by
  have onOwn {n : String} (hn : σ.own n) {f : Handle → World V × Answer V}
      (hf : ∀ x : Handle, σ.left.cell x.cell → Paired σ κ (f x).1 v) :
      Paired σ κ (w.onFuture n f).1 v := by
    unfold World.onFuture World.future
    cases hx : w.futureNames.get? n with
    | none => exact h
    | some x => exact hf x (h.ownLeft n x hn hx)
  have onAny {n : String} {f : Handle → World V × Answer V} (hf : ∀ x, Paired σ κ (f x).1 v) :
      Paired σ κ (w.onFuture n f).1 v := by
    unfold World.onFuture
    cases w.future n with
    | error p => exact h
    | ok x => exact hf x
  have look {n : String} {f : Nat → World V × Answer V} (hf : ∀ e, (f e).1 = w) :
      Paired σ κ (w.onExecutor n f).1 v := by
    unfold World.onExecutor
    cases w.executor n with
    | error p => exact h
    | ok e => exact (hf e).symm ▸ h
  have tell {α : Type} {x : Except Panic α} {f : α → Answer V} : Paired σ κ (w.answer f x).1 v := by
    cases x <;> exact h
  cases c with
  | cancel future interrupt => exact onOwn ht fun x hx => h.cancel_left hx interrupt
  | share future name => exact onOwn ht.1 fun x hx => h.nameFuture_left ht.2 hx
  | shareTask future name => exact onOwn ht.1 fun x hx => h.nameFuture_left ht.2 hx
  | forget future => exact onAny fun _ => h.forget_left ht
  | inspect future => exact onAny fun _ => h
  | delay future unit => cases unit <;> exact tell
  | dueTime future => exact tell
  | compare n m => exact tell
  | compareFixed future amount unit due => exact tell
  | sort futures => exact tell
  | lifecycle executor => exact look fun _ => rfl
  | describe executor => exact look fun _ => rfl
  | stats executor => exact look fun _ => rfl
  | _ => exact ht.elim

end Paired

end TimedTasks.World

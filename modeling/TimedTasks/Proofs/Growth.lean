import TimedTasks.Proofs.Operation
/-!
What no operation takes back. Whatever has come into being stays at its place; an outcome, a signal
and the end of a task are for ever; an executor's life only moves forward; and the history grows at
its end.
-/

namespace TimedTasks

/-- Every member of a list is still at its place in another one, changed as `R` allows. -/
def Keeps {α : Type} (R : α → α → Prop) (l l' : List α) : Prop :=
  ∀ (i : Nat) (a : α), l[i]? = some a → ∃ a', l'[i]? = some a' ∧ R a a'

namespace Keeps

variable {α : Type} {R : α → α → Prop} {l l' l'' : List α}

theorem refl (hr : ∀ a, R a a) (l : List α) : Keeps R l l := fun _ a ha => ⟨a, ha, hr a⟩

theorem trans (ht : ∀ {a b c}, R a b → R b c → R a c) (h : Keeps R l l') (h' : Keeps R l' l'') :
    Keeps R l l'' := by
  intro i a ha
  obtain ⟨b, hb, hab⟩ := h i a ha
  obtain ⟨c, hc, hbc⟩ := h' i b hb
  exact ⟨c, hc, ht hab hbc⟩

theorem modify (hr : ∀ a, R a a) {i : Nat} {g : α → α} (hg : ∀ a, l[i]? = some a → R a (g a)) :
    Keeps R l (l.modify i g) := by
  intro j a ha
  rw [List.getElem?_modify]
  by_cases hij : i = j
  · subst hij
    exact ⟨g a, by simp [ha], hg a ha⟩
  · exact ⟨a, by simp [hij, ha], hr a⟩

theorem modify_at (hr : ∀ a, R a a) {i : Nat} {a : α} {g : α → α} (ha : l[i]? = some a)
    (hg : R a (g a)) : Keeps R l (l.modify i g) := by
  apply modify hr
  intro b hb
  obtain rfl : a = b := by simpa [ha] using hb
  exact hg

theorem append (hr : ∀ a, R a a) (l l' : List α) : Keeps R l (l ++ l') := by
  intro i a ha
  have hi := (List.getElem?_eq_some_iff.mp ha).1
  exact ⟨a, by rw [List.getElem?_append_left hi]; exact ha, hr a⟩

end Keeps

namespace Lifecycle

/-- How far an executor's life has come. -/
def rank : Lifecycle → Nat
  | running => 0
  | draining => 1
  | terminated => 2

theorem rank_le_two (s : Lifecycle) : s.rank ≤ 2 := by cases s <;> decide

end Lifecycle

variable {V : Type}

structure Cell.Later (a b : Cell V) : Prop where
  outcome : ∀ o, a.outcome = some o → b.outcome = some o
  token : a.token = true → b.token = true
  closed : a.phase = .closed → b.phase = .closed

structure Child.Later (a b : Child V) : Prop where
  executor : b.executor = a.executor
  id : b.id = a.id
  cell : b.cell = a.cell
  name : b.name = a.name
  work : b.work = a.work
  hasEnded : a.hasEnded = true → b.hasEnded = true

structure Executor.Later (a b : Executor) : Prop where
  settings : b.settings = a.settings
  origin : b.origin = a.origin
  rank : a.state.rank ≤ b.state.rank

structure Waiter.Later (a b : Waiter V) : Prop where
  name : b.name = a.name
  request : b.request = a.request
  hasEnded : a.stage = .ended → b.stage = .ended

structure Batch.Later (a b : Batch V) : Prop where
  cells : b.cells = a.cells
  winner : ∀ value, a.winner = some value → b.winner = some value
  notified : a.notified = true → b.notified = true
  remaining : b.remaining ≤ a.remaining

namespace Cell.Later

theorem refl (a : Cell V) : Later a a := ⟨fun _ => id, id, id⟩

theorem trans {a b c : Cell V} (h : Later a b) (h' : Later b c) : Later a c :=
  ⟨fun o ho => h'.outcome o (h.outcome o ho), fun ht => h'.token (h.token ht),
    fun hp => h'.closed (h.closed hp)⟩

theorem settleBy (a : Cell V) (o : Option (Outcome V)) : Later a (a.settleBy o) :=
  ⟨fun o' ho => by simp [Cell.settleBy, ho], id, id⟩

theorem cancelBy (a : Cell V) (interrupt : Bool) : Later a (a.cancelBy interrupt) := by
  unfold Cell.cancelBy
  split
  · rename_i hg
    simp only [Cell.grants, Bool.and_eq_true, Option.isNone_iff_eq_none] at hg
    exact ⟨fun o ho => by simp [hg.1] at ho, fun _ => rfl, fun _ => rfl⟩
  · exact refl a

theorem conclude (a : Cell V) (r : RunEnd V) : Later a (a.conclude r) :=
  (settleBy a _).trans (cancelBy _ true)

end Cell.Later

namespace Child.Later

theorem refl (a : Child V) : Later a a := ⟨rfl, rfl, rfl, rfl, rfl, fun he => he⟩

theorem trans {a b c : Child V} (h : Later a b) (h' : Later b c) : Later a c :=
  ⟨h'.executor.trans h.executor, h'.id.trans h.id, h'.cell.trans h.cell, h'.name.trans h.name,
    h'.work.trans h.work, fun he => h'.hasEnded (h.hasEnded he)⟩

theorem stage {a : Child V} (he : a.hasEnded = false) (s : Stage V) :
    Later a { a with stage := s } :=
  ⟨rfl, rfl, rfl, rfl, rfl, fun h => by simp [he] at h⟩

end Child.Later

namespace Executor.Later

theorem refl (a : Executor) : Later a a := ⟨rfl, rfl, Nat.le_refl _⟩

theorem trans {a b c : Executor} (h : Later a b) (h' : Later b c) : Later a c :=
  ⟨h'.settings.trans h.settings, h'.origin.trans h.origin, Nat.le_trans h.rank h'.rank⟩

end Executor.Later

namespace Waiter.Later

theorem refl (a : Waiter V) : Later a a := ⟨rfl, rfl, id⟩

theorem trans {a b c : Waiter V} (h : Later a b) (h' : Later b c) : Later a c :=
  ⟨h'.name.trans h.name, h'.request.trans h.request, fun he => h'.hasEnded (h.hasEnded he)⟩

end Waiter.Later

namespace Batch.Later

theorem refl (a : Batch V) : Later a a := ⟨rfl, fun _ => id, id, Nat.le_refl _⟩

theorem trans {a b c : Batch V} (h : Later a b) (h' : Later b c) : Later a c :=
  ⟨h'.cells.trans h.cells, fun v hv => h'.winner v (h.winner v hv),
    fun hn => h'.notified (h.notified hn), Nat.le_trans h'.remaining h.remaining⟩

theorem hear (a : Batch V) (r : RunEnd V) : Later a (a.hear r) := by
  unfold Batch.hear
  split
  · split
    · rename_i hw
      exact ⟨rfl, fun v hv => by simp [hv] at hw, fun _ => rfl, Nat.le_refl _⟩
    · exact refl a
  · exact ⟨rfl, fun _ => id, id, Nat.le_refl _⟩
  · exact refl a

theorem countDown (a : Batch V) : Later a a.countDown :=
  ⟨rfl, fun _ => id, fun hn => by simp [Batch.countDown, hn], Nat.sub_le _ _⟩

theorem tell (a : Batch V) (work : Work V) (r : RunEnd V) : Later a (work.tell r a) := by
  cases work with
  | oneOfAny b body => exact (hear a r).trans (countDown _)
  | _ => exact countDown a

end Batch.Later

namespace World

/-- What the second state has kept of the first one. -/
structure Later (w w' : World V) : Prop where
  clock : w.clock.elapsed ≤ w'.clock.elapsed
  executors : Keeps Executor.Later w.executors w'.executors
  cells : Keeps Cell.Later w.cells w'.cells
  children : Keeps Child.Later w.children w'.children
  waiters : Keeps Waiter.Later w.waiters w'.waiters
  batches : Keeps Batch.Later w.batches w'.batches
  history : w.history <+: w'.history

namespace Later

theorem refl (w : World V) : Later w w :=
  ⟨Nat.le_refl _, .refl .refl _, .refl .refl _, .refl .refl _, .refl .refl _, .refl .refl _,
    List.prefix_refl _⟩

theorem trans {w w' w'' : World V} (h : Later w w') (h' : Later w' w'') : Later w w'' :=
  ⟨Nat.le_trans h.clock h'.clock, h.executors.trans .trans h'.executors,
    h.cells.trans .trans h'.cells, h.children.trans .trans h'.children,
    h.waiters.trans .trans h'.waiters, h.batches.trans .trans h'.batches,
    h.history.trans h'.history⟩

/-- Only the parts that change matter. -/
theorem of_eq {w w' : World V} (clock : w'.clock = w.clock) (executors : w'.executors = w.executors)
    (cells : Keeps Cell.Later w.cells w'.cells) (children : w'.children = w.children)
    (waiters : w'.waiters = w.waiters) (batches : w'.batches = w.batches)
    (history : w.history <+: w'.history) : Later w w' :=
  ⟨clock ▸ Nat.le_refl _, executors ▸ .refl .refl _, cells, children ▸ .refl .refl _,
    waiters ▸ .refl .refl _, batches ▸ .refl .refl _, history⟩

end Later

theorem mayStart_iff {w : World V} {c : Nat} :
    w.mayStart c = true ↔
      ∃ cell, w.cells[c]? = some cell ∧ cell.phase = .idle ∧ cell.outcome = none := by
  unfold mayStart
  cases w.cells[c]? <;> simp

theorem countRun_cells (w : World V) (i : Nat) (child : Child V) :
    (w.countRun i child).cells = w.cells := by
  unfold countRun
  split <;> rfl

theorem countRun_frame (w : World V) (i : Nat) (child : Child V) :
    (w.countRun i child).clock = w.clock ∧ (w.countRun i child).executors = w.executors ∧
    (w.countRun i child).waiters = w.waiters ∧ (w.countRun i child).batches = w.batches ∧
    (w.countRun i child).ready = w.ready ∧ (w.countRun i child).waiting = w.waiting ∧
    (w.countRun i child).executorNames = w.executorNames ∧
    (w.countRun i child).futureNames = w.futureNames ∧
    (w.countRun i child).history = w.history := by
  unfold countRun
  split <;> exact ⟨rfl, rfl, rfl, rfl, rfl, rfl, rfl, rfl, rfl⟩

/-- A run that starts is told of by its call, and by nothing else. -/
theorem begin_history (w : World V) (i : Nat) (child : Child V) :
    (((w.countRun i child).beginRun child.cell).record (.called child.cell)).history =
      w.history ++ [(w.now, .called child.cell)] := by
  obtain ⟨hclock, -, -, -, -, -, -, -, hhistory⟩ := countRun_frame w i child
  have hnow : (w.countRun i child).now = w.now := congrArg (·.elapsed.nanos) hclock
  exact congrArg₂ (fun l t => l ++ [(t, _)]) hhistory hnow

theorem countRun_children (w : World V) (i : Nat) (child : Child V) :
    (w.countRun i child).children = w.children.modify i fun x =>
      { x with runs := if child.work.kind = .periodic then x.runs + 1 else x.runs } := by
  unfold countRun
  cases child.work with
  | periodic pace runs => rfl
  | _ => exact (List.modify_id _ _).symm

theorem countRun_later (w : World V) (i : Nat) (child : Child V) :
    Later w (w.countRun i child) := by
  unfold countRun
  split
  · exact { Later.refl w with
      children := .modify .refl fun _ _ => ⟨rfl, rfl, rfl, rfl, rfl, fun he => he⟩ }
  · exact .refl w

theorem addChild_later (w : World V) (e : Nat) (name : String) (work : Work V)
    (mark : Option Mark) : Later w (w.addChild e name work mark).1 :=
  { Later.refl w with
    cells := .append .refl _ _
    children := .append .refl _ _
    executors := .modify .refl fun _ _ => ⟨rfl, rfl, Nat.le_refl _⟩ }

theorem openBatch_later (w : World V) (e : Nat) (name : String) (work : Nat → Body V → Work V)
    (bodies : List (Body V)) : Later w (w.openBatch e name work bodies) := by
  have h := addBatchChildren_induct (Later.refl w) e name (work w.batches.length) 0 bodies
    fun w' name' body h' => h'.trans (addChild_later w' e name' _ none)
  exact { h with batches := h.batches.trans .trans (.append .refl _ _) }

theorem finish_later {w : World V} {i : Nat} {child : Child V} (r : RunEnd V)
    (hc : w.children[i]? = some child) (he : child.hasEnded = false) :
    Later w (w.finish i child r) where
  clock := by rw [(finish_frame r hc).1]; exact Nat.le_refl _
  executors := by
    rw [finish_executors r hc]
    exact .modify .refl fun _ _ => ⟨rfl, rfl, Nat.le_refl _⟩
  cells := by
    rw [finish_cells r hc]
    exact .modify .refl fun cell _ => .conclude cell _
  children := by
    rw [(finish_frame r hc).2.1]
    exact .modify_at .refl hc (.stage he _)
  waiters := by rw [(finish_frame r hc).2.2.1]; exact .refl .refl _
  batches := by
    rw [finish_batches r hc]
    cases child.work.batch? with
    | none => exact .refl .refl _
    | some b => exact .modify .refl fun x _ => .tell x _ r
  history := by rw [finish_history r hc]; exact List.prefix_append _ _

theorem parkChild_later {w : World V} {i : Nat} {child : Child V} (s : Stage V)
    (hc : w.children[i]? = some child) (he : child.hasEnded = false) :
    Later w (w.parkChild i s) := by
  have hk : Keeps Child.Later w.children (w.setStage i s).children :=
    .modify_at .refl hc (.stage he s)
  rw [parkChild_eq s hc]
  split <;> exact { Later.refl w with children := hk }

theorem cancel_later (w : World V) (c : Nat) (interrupt : Bool) :
    Later w (w.cancel c interrupt).1 := by
  obtain ⟨hclock, hexecutors, hchildren, hwaiters, hbatches, -⟩ := w.cancel_frame c interrupt
  refine .of_eq hclock hexecutors ?_ hchildren hwaiters hbatches ?_
  · rw [cancel_cells]
    exact .modify .refl fun cell _ => .cancelBy cell interrupt
  · rw [cancel_history]
    exact List.prefix_append _ _

theorem endRun_later (w : World V) (c : Nat) : Later w (w.endRun c) :=
  { Later.refl w with cells := .modify .refl fun _ _ => ⟨fun _ => id, id, fun hp => by simp [hp]⟩ }

theorem leave_later (w : World V) (c : Nat) (r : RunEnd V) :
    Later w (w.modifyCell c (·.leave r)) := by
  refine { Later.refl w with cells := .modify .refl fun cell _ => ?_ }
  cases r with
  | panicked => exact .refl cell
  | _ => exact ⟨fun _ => id, id, fun hp => by simp [Cell.leave, hp]⟩

end World

open World

theorem Op.later {f f' : Focus} {w w' : World V} (h : Op f w f' w') : Later w w' := by
  cases h with
  | quiet futures waiters threads log notices hf => exact { Later.refl w with }
  | create name s => exact { Later.refl w with executors := .append .refl _ _ }
  | refuse e =>
    exact { Later.refl w with
      executors := .modify .refl fun _ _ => ⟨rfl, rfl, Nat.le_refl _⟩ }
  | enrol name mark hr hb => exact addChild_later ..
  | await name hq => exact { Later.refl w with waiters := .append .refl _ _ }
  | abort j =>
    exact { Later.refl w with waiters := .modify .refl fun _ _ => ⟨rfl, rfl, fun _ => rfl⟩ }
  | cancel hg => exact cancel_later ..
  | ask he hr => exact { Later.refl w with history := List.prefix_append _ _ }
  | drain hr =>
    obtain ⟨x, hx, hs⟩ := isRunning_iff.mp hr
    exact { Later.refl w with
      executors := .modify_at .refl hx ⟨rfl, rfl, by simp [hs, Lifecycle.rank]⟩
      history := (List.prefix_append _ _).trans (List.prefix_append _ _) }
  | close hx h0 =>
    exact { Later.refl w with
      executors :=
        (Keeps.modify .refl fun _ _ => ⟨rfl, rfl, Nat.le_refl _⟩).trans .trans
          (.modify .refl fun y _ => ⟨rfl, rfl, y.state.rank_le_two⟩)
      history := List.prefix_append _ _ }
  | watch hx h0 =>
    exact { Later.refl w with
      executors := .modify .refl fun _ _ => ⟨rfl, rfl, Nat.le_refl _⟩ }
  | take hr => exact { Later.refl w with }
  | leave hr => exact .refl w
  | clock ht => exact { Later.refl w with clock := ht }
  | @start _ i child hc he hm hs hr hd =>
    refine (countRun_later w i child).trans ?_
    obtain ⟨cell, hcell, hp⟩ := mayStart_iff.mp hm
    exact { Later.refl _ with
      cells := .modify_at .refl ((countRun_cells w i child).symm ▸ hcell)
        ⟨fun _ => id, id, fun h => by simp [hp.1] at h⟩
      history := List.prefix_append _ _ }
  | poll hc => exact { Later.refl w with history := List.prefix_append _ _ }
  | resume hc he hs => exact { Later.refl w with history := List.prefix_append _ _ }
  | drop hc he hs => exact endRun_later ..
  | pause rest hc he ho hp => exact parkChild_later _ hc he
  | again value hc hk =>
    exact (endRun_later ..).trans { Later.refl _ with history := List.prefix_append _ _ }
  | remark next hc hk =>
    exact { Later.refl w with cells := .modify .refl fun _ _ => ⟨fun _ => id, id, id⟩ }
  | sleep hc he hp hs hk => exact parkChild_later _ hc he
  | yield hc he hp hk =>
    exact { Later.refl w with children := .modify_at .refl hc (.stage he _) }
  | finish hc he hr hk => exact (leave_later ..).trans (finish_later _ hc he)
  | stop hc he hb => exact finish_later _ hc he
  | openBatch name hr hw hn => exact openBatch_later ..
  | grant count =>
    rw [addCancelledCells_cells]
    exact { Later.refl w with cells := .append .refl _ _ }
  | wait hx he hq hb hc hd =>
    exact { Later.refl w with
      waiters := .modify_at .refl hx ⟨rfl, rfl, fun h => absurd h he.ne_ended⟩ }
  | answer =>
    exact { Later.refl w with waiters := .modify .refl fun _ _ => ⟨rfl, rfl, fun _ => rfl⟩ }
  | linger hd => exact { Later.refl w with }
  | terminate hd =>
    exact { Later.refl w with
      executors := .modify .refl fun y _ => ⟨rfl, rfl, y.state.rank_le_two⟩
      history := List.prefix_append _ _ }

theorem Ops.later {f f' : Focus} {w w' : World V} (h : Ops f w f' w') : Later w w' := by
  suffices ∀ b : Focus × World V,
      Relation.ReflTransGen (fun a b : Focus × World V => Op a.1 a.2 b.1 b.2) (f, w) b →
        Later w b.2 from this (f', w') h
  intro b hb
  induction hb with
  | refl => exact .refl w
  | tail _ ho ih => exact ih.trans ho.later

end TimedTasks

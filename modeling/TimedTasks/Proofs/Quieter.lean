import TimedTasks.Proofs.Passage
/-!
What leaves the words of tasks alone. Most of what happens in a run gives no task more to do than it
had and no name to anything: settling and cancelling, shutting down, the end of a child, a child
that is put by.
-/

namespace TimedTasks.World

variable {V : Type}

/-- A state in which no task has more to say and the same names stand for the same things. -/
structure Quieter (w w' : World V) : Prop where
  children : ∀ x' ∈ w'.children, ∃ x ∈ w.children, x'.work = x.work ∧
    ∀ on rest, x'.stage = .suspended on rest → x.stage = .suspended on rest
  waiters : ∀ x' ∈ w'.waiters, ∃ x ∈ w.waiters, x'.request = x.request
  futures : w'.futureNames = w.futureNames
  threads : w'.threadNames = w.threadNames
  cells : w.cells.length ≤ w'.cells.length

variable {w w' w'' : World V} {i j : Nat}

namespace Quieter

theorem of_eq (hc : w'.children = w.children) (hw : w'.waiters = w.waiters)
    (hf : w'.futureNames = w.futureNames) (ht : w'.threadNames = w.threadNames)
    (hl : w'.cells.length = w.cells.length) : Quieter w w' where
  children x hx := ⟨x, hc ▸ hx, rfl, fun _ _ => id⟩
  waiters x hx := ⟨x, hw ▸ hx, rfl⟩
  futures := hf
  threads := ht
  cells := Nat.le_of_eq hl.symm

theorem refl (w : World V) : Quieter w w := .of_eq rfl rfl rfl rfl rfl

theorem trans (h : Quieter w w') (h' : Quieter w' w'') : Quieter w w'' where
  children x'' hx := by
    obtain ⟨x', hx, hwork', hrest'⟩ := h'.children x'' hx
    obtain ⟨x, hx, hwork, hrest⟩ := h.children x' hx
    exact ⟨x, hx, hwork'.trans hwork, fun on rest hs => hrest on rest (hrest' on rest hs)⟩
  waiters x'' hx := by
    obtain ⟨x', hx, hreq'⟩ := h'.waiters x'' hx
    obtain ⟨x, hx, hreq⟩ := h.waiters x' hx
    exact ⟨x, hx, hreq'.trans hreq⟩
  futures := h'.futures.trans h.futures
  threads := h'.threads.trans h.threads
  cells := Nat.le_trans h.cells h'.cells

theorem report (w : World V) (n : Notice) : Quieter w (w.report n) := .of_eq rfl rfl rfl rfl rfl

theorem modifyCell (w : World V) (c : Nat) (g : Cell V → Cell V) : Quieter w (w.modifyCell c g) :=
  .of_eq rfl rfl rfl rfl (List.length_modify ..)

theorem modifyChild (w : World V) (i : Nat) {g : Child V → Child V} (hw : ∀ x, (g x).work = x.work)
    (hs : ∀ x on rest, (g x).stage = .suspended on rest → x.stage = .suspended on rest) :
    Quieter w (w.modifyChild i g) where
  children x' hx := by
    obtain ⟨k, hk⟩ := List.mem_iff_getElem?.mp hx
    obtain ⟨x, hold, ⟨-, rfl⟩ | ⟨-, rfl⟩⟩ := exists_getElem?_of_modify hk
    · exact ⟨x, List.mem_of_getElem? hold, hw x, hs x⟩
    · exact ⟨_, List.mem_of_getElem? hold, rfl, fun _ _ => id⟩
  waiters x hx := ⟨x, hx, rfl⟩
  futures := rfl
  threads := rfl
  cells := Nat.le_refl _

theorem setStage (w : World V) (i : Nat) {s : Stage V} (hs : ∀ on rest, s ≠ .suspended on rest) :
    Quieter w (w.setStage i s) :=
  modifyChild w i (fun _ => rfl) fun _ on rest heq => absurd heq (hs on rest)

theorem modifyWaiter (w : World V) (j : Nat) (s : WaiterStage) :
    Quieter w (w.modifyWaiter j fun x => { x with stage := s }) where
  children x hx := ⟨x, hx, rfl, fun _ _ => id⟩
  waiters x' hx := by
    obtain ⟨k, hk⟩ := List.mem_iff_getElem?.mp hx
    obtain ⟨x, hold, ⟨-, rfl⟩ | ⟨-, rfl⟩⟩ := exists_getElem?_of_modify hk
    · exact ⟨x, List.mem_of_getElem? hold, rfl⟩
    · exact ⟨_, List.mem_of_getElem? hold, rfl⟩
  futures := rfl
  threads := rfl
  cells := Nat.le_refl _

/-! ## Cancelling -/

theorem settle (w : World V) (c : Nat) (o : Outcome V) : Quieter w (w.settle c o) := by
  unfold World.settle
  split
  · exact refl w
  · exact .of_eq rfl rfl rfl rfl (List.length_modify ..)

theorem signal (w : World V) (c : Nat) : Quieter w (w.signal c) := by
  unfold World.signal
  split
  · exact refl w
  · exact .of_eq rfl rfl rfl rfl (List.length_modify ..)

theorem cancel (w : World V) (c : Nat) (interrupt : Bool) : Quieter w (w.cancel c interrupt).1 := by
  unfold World.cancel
  split
  · exact ((modifyCell w c _).trans (settle ..)).trans
      ((signal ..).trans (.of_eq rfl rfl rfl rfl rfl))
  · exact refl w

theorem cancelAll (w : World V) (cs : List Nat) : Quieter w (w.cancelAll cs).1 := by
  induction cs generalizing w with
  | nil => exact refl w
  | cons c cs ih => exact (cancel w c true).trans (ih _)

theorem signalAll (w : World V) (cs : List Nat) : Quieter w (w.signalAll cs) := by
  induction cs generalizing w with
  | nil => exact refl w
  | cons c cs ih => exact (signal w c).trans (ih _)

theorem seeTo (w : World V) (s : Settings) (i : Nat) : Quieter w (w.seeTo s i) := by
  unfold World.seeTo
  split
  · exact refl w
  · dsimp only
    split
    · split
      · exact (cancel ..).trans (.of_eq rfl rfl rfl rfl rfl)
      · exact cancel ..
    · exact refl w

theorem applyPolicies (w : World V) (s : Settings) (is : List Nat) :
    Quieter w (w.applyPolicies s is) := by
  induction is generalizing w with
  | nil => exact refl w
  | cons i is ih =>
    rw [applyPolicies_cons]
    exact (seeTo w s i).trans (ih _)

/-! ## Shutting down -/

theorem beginDrain (w : World V) (e : Nat) : Quieter w (w.beginDrain e) := by
  unfold World.beginDrain
  dsimp only
  split <;> exact .of_eq rfl rfl rfl rfl rfl

theorem beginShutdown (w : World V) (e : Nat) : Quieter w (w.beginShutdown e).1 := by
  unfold World.beginShutdown
  dsimp only
  split <;> exact .of_eq rfl rfl rfl rfl rfl

theorem shutdown (w : World V) (e : Nat) : Quieter w (w.shutdown e) := by
  have hbegun : Quieter w ((w.report (.shutdownCalled (w.nameOf e))).beginShutdown e).1 :=
    (report w _).trans (beginShutdown _ e)
  unfold World.shutdown
  dsimp only
  revert hbegun
  generalize (w.report (.shutdownCalled (w.nameOf e))).executors[e]? = x
  generalize (w.report (.shutdownCalled (w.nameOf e))).beginShutdown e = r
  obtain ⟨w', moved⟩ := r
  intro hbegun
  cases x with
  | none => exact hbegun
  | some x =>
    cases moved with
    | false => exact hbegun
    | true =>
      refine hbegun.trans
        (trans ?_ ((applyPolicies _ x.settings x.registry).trans (beginDrain _ e)))
      exact .of_eq rfl rfl rfl rfl rfl

theorem shutdownNow (w : World V) (e : Nat) : Quieter w (w.shutdownNow e) := by
  unfold World.shutdownNow
  dsimp only
  have hbegun : Quieter w ((w.report (.shutdownNowCalled (w.nameOf e))).beginShutdown e).1 :=
    (report w _).trans (beginShutdown _ e)
  have hcleared {cells : List Nat} {n : Notice} : Quieter w
      (((((w.report (.shutdownNowCalled (w.nameOf e))).beginShutdown e).1.cancelAll
        cells).1.signalAll cells).report n) :=
    ((hbegun.trans (cancelAll _ cells)).trans (signalAll _ cells)).trans
      (.of_eq rfl rfl rfl rfl rfl)
  split
  · exact hcleared.trans (beginDrain _ e)
  · exact hcleared

/-! ## The end of a child -/

theorem settleRun (w : World V) (c : Nat) (r : RunEnd V) : Quieter w (w.settleRun c r) := by
  cases r with
  | panicked => exact refl w
  | _ => exact settle ..

theorem reportUnwanted (w : World V) (child : Child V) (yield : Yield V) (r : RunEnd V) :
    Quieter w (w.reportUnwanted child yield r) := by
  unfold World.reportUnwanted
  split
  · split <;> exact .of_eq rfl rfl rfl rfl rfl
  · exact refl w

theorem countDown (w : World V) (b : Nat) : Quieter w (w.countDown b) := by
  unfold World.countDown
  dsimp only
  split
  · split <;> exact .of_eq rfl rfl rfl rfl rfl
  · exact .of_eq rfl rfl rfl rfl rfl

theorem tellBatch (w : World V) (b : Nat) (r : RunEnd V) : Quieter w (w.tellBatch b r) := by
  unfold World.tellBatch
  split
  · unfold World.offer
    split
    · split <;> exact .of_eq rfl rfl rfl rfl rfl
    · exact refl w
  · exact .of_eq rfl rfl rfl rfl rfl
  · exact refl w

theorem deliver (w : World V) (child : Child V) (r : RunEnd V) : Quieter w (w.deliver child r) := by
  have hrecord : Quieter w (w.record (.ended child.cell r)) := .of_eq rfl rfl rfl rfl rfl
  unfold World.deliver
  dsimp only
  split
  · exact hrecord.trans ((reportUnwanted ..).trans (settleRun ..))
  · exact hrecord.trans (settleRun ..)
  · exact hrecord.trans (settleRun ..)
  · exact hrecord.trans ((settleRun ..).trans (countDown ..))
  · exact hrecord.trans (((tellBatch ..).trans (settleRun ..)).trans (countDown ..))

theorem release (w : World V) (e : Nat) : Quieter w (w.release e) := by
  unfold World.release
  dsimp only
  split <;> exact .of_eq rfl rfl rfl rfl rfl

theorem endChild (w : World V) (i : Nat) : Quieter w (w.endChild i) := by
  unfold World.endChild
  split
  · exact refl w
  · rename_i child _
    refine trans (trans ?_ (setStage _ i (s := .ended) (by simp))) (release _ child.executor)
    exact (cancel w child.cell true).trans (.of_eq rfl rfl rfl rfl rfl)

theorem finish (w : World V) (i : Nat) (child : Child V) (r : RunEnd V) :
    Quieter w (w.finish i child r) := (deliver ..).trans (endChild ..)

theorem parkChild (w : World V) (i : Nat) {s : Stage V} (hs : ∀ on rest, s ≠ .suspended on rest) :
    Quieter w (w.parkChild i s) := by
  refine (setStage w i hs).trans ?_
  unfold World.parkChild
  dsimp only
  split
  · exact refl _
  · split <;> exact .of_eq rfl rfl rfl rfl rfl

end Quieter

end TimedTasks.World

import TimedTasks.Proofs.Accounts
/-!
What the history tells of an executor's life: its state says how often draining and termination
were announced, and whether a shutdown was asked for.
-/

namespace TimedTasks

variable {V : Type}

namespace Happening

/-- The executor whose life something is about. -/
def executor? : Happening V → Option Nat
  | .asked e | .draining e | .terminated e => some e
  | _ => none

def isAsked (e : Nat) : Happening V → Bool
  | .asked k => k == e
  | _ => false

def isDraining (e : Nat) : Happening V → Bool
  | .draining k => k == e
  | _ => false

def isTerminated (e : Nat) : Happening V → Bool
  | .terminated k => k == e
  | _ => false

theorem not_of_executor? {h : Happening V} {e : Nat} (he : h.executor? ≠ some e) :
    h.isAsked e = false ∧ h.isDraining e = false ∧ h.isTerminated e = false := by
  cases h <;> simp_all [executor?, isAsked, isDraining, isTerminated]

end Happening

namespace World

/-- How far the life of an executor has come, if it is there. -/
def rank (w : World V) (e : Nat) : Nat := ((w.stateOf? e).map (·.rank)).getD 0

/-- What the history tells of an executor that has come so far. -/
structure Told (l : List (Instant × Happening V)) (e rank : Nat) : Prop where
  asked : l.any (·.2.isAsked e) = decide (0 < rank)
  draining : l.countP (·.2.isDraining e) = min rank 1
  terminated : l.countP (·.2.isTerminated e) = rank - 1

def Chronicled (w : World V) : Prop := ∀ e, Told w.history e (w.rank e)

namespace Told

variable {l l' : List (Instant × Happening V)} {e n : Nat}

/-- What befalls tasks and other executors tells nothing of this one. -/
theorem append (h : Told l e n) (hl : ∀ p ∈ l', p.2.executor? ≠ some e) : Told (l ++ l') e n := by
  have hn : ∀ p ∈ l', p.2.isAsked e = false ∧ p.2.isDraining e = false ∧
      p.2.isTerminated e = false := fun p hp => Happening.not_of_executor? (hl p hp)
  refine ⟨?_, ?_, ?_⟩
  · rw [List.any_append, h.asked, List.any_eq_false.mpr fun p hp => by simp [(hn p hp).1],
      Bool.or_false]
  · rw [List.countP_append, h.draining,
      List.countP_eq_zero.mpr fun p hp => by simp [(hn p hp).2.1], Nat.add_zero]
  · rw [List.countP_append, h.terminated,
      List.countP_eq_zero.mpr fun p hp => by simp [(hn p hp).2.2], Nat.add_zero]

theorem ask (h : Told l e n) (hn : 0 < n) (t : Instant) : Told (l ++ [(t, .asked e)]) e n := by
  refine ⟨?_, ?_, ?_⟩
  · simp [Happening.isAsked, hn]
  · simpa [Happening.isDraining] using h.draining
  · simpa [Happening.isTerminated] using h.terminated

theorem drain (h : Told l e 0) (t : Instant) :
    Told (l ++ [(t, .asked e)] ++ [(t, .draining e)]) e 1 := by
  refine ⟨?_, ?_, ?_⟩
  · simp [Happening.isAsked]
  · simpa [Happening.isDraining] using h.draining
  · simpa [Happening.isTerminated] using h.terminated

theorem terminate (h : Told l e 1) (t : Instant) : Told (l ++ [(t, .terminated e)]) e 2 := by
  refine ⟨?_, ?_, ?_⟩
  · simpa [Happening.isAsked] using h.asked
  · simpa [Happening.isDraining] using h.draining
  · simpa [Happening.isTerminated] using h.terminated

end Told

variable {w w' : World V}

theorem rank_congr (h : w'.executors = w.executors) (e : Nat) : w'.rank e = w.rank e := by
  rw [rank, rank, stateOf?, stateOf?, h]

theorem rank_modify {k : Nat} {g : Executor → Executor}
    (h : w'.executors = w.executors.modify k g) (hg : ∀ x, (g x).state = x.state) (e : Nat) :
    w'.rank e = w.rank e := by
  have hs := stateOf?_modifyExecutor (w := w) (e := k) (k := e) hg
  rw [rank, rank, ← hs, stateOf?, h]
  rfl

theorem rank_modify_of_ne {k : Nat} {g : Executor → Executor}
    (h : w'.executors = w.executors.modify k g) {e : Nat} (he : e ≠ k) :
    w'.rank e = w.rank e := by
  rw [rank, rank, stateOf?, stateOf?, h, List.getElem?_modify_ne _ _ (Ne.symm he)]

theorem rank_addChild (e : Nat) (name : String) (work : Work V) (mark : Option Mark) (k : Nat) :
    (w.addChild e name work mark).1.rank k = w.rank k := by
  have h : ∃ g, (w.addChild e name work mark).1.executors = w.executors.modify e g ∧
      ∀ x, (g x).state = x.state := ⟨_, rfl, fun _ => rfl⟩
  obtain ⟨g, hx, hg⟩ := h
  exact rank_modify hx hg k

theorem rank_openBatch (e : Nat) (name : String) (work : Nat → Body V → Work V)
    (bodies : List (Body V)) (k : Nat) : (w.openBatch e name work bodies).rank k = w.rank k :=
  addBatchChildren_induct (P := fun w' => w'.rank k = w.rank k) rfl e name _ 0 bodies
    fun _ _ _ hk => (rank_addChild ..).trans hk

/-- An executor that is made is running. -/
theorem rank_addExecutor (s : Settings) (k : Nat) : (w.addExecutor s).1.rank k = w.rank k := by
  show (Option.map Lifecycle.rank (Option.map _ (w.executors ++ [_])[k]?)).getD 0 = _
  rw [rank, stateOf?, List.getElem?_append]
  split
  · rfl
  · rename_i hk
    rw [List.getElem?_eq_none (Nat.le_of_not_lt hk), List.getElem?_singleton]
    split <;> rfl

theorem rank_of_getElem? {e : Nat} {x : Executor} (h : w.executors[e]? = some x) :
    w.rank e = x.state.rank := by
  rw [rank, stateOf?, h]
  rfl

namespace Chronicled

theorem same (h : Chronicled w) {l : List (Instant × Happening V)}
    (history : w'.history = w.history ++ l) (hl : ∀ p ∈ l, p.2.executor? = none)
    (ranks : ∀ e, w'.rank e = w.rank e) : Chronicled w' := by
  intro e
  rw [history, ranks]
  exact (h e).append fun p hp => by rw [hl p hp]; simp

/-- Something befalls one executor. -/
theorem change (h : Chronicled w) {e : Nat} {l : List (Instant × Happening V)}
    (history : w'.history = w.history ++ l) (hl : ∀ p ∈ l, p.2.executor? = some e)
    (ranks : ∀ k, k ≠ e → w'.rank k = w.rank k) (told : Told w'.history e (w'.rank e)) :
    Chronicled w' := by
  intro k
  by_cases hk : k = e
  · exact hk ▸ told
  · rw [history, ranks k hk]
    apply (h k).append
    intro p hp
    rw [hl p hp]
    exact fun he => hk (Option.some.inj he).symm

end Chronicled

end World

open World

variable {f f' : Focus} {w w' : World V}

theorem World.Chronicled.finish (h : Chronicled w) {i : Nat} {child : Child V} (r : RunEnd V)
    (hc : w.children[i]? = some child) : Chronicled (w.finish i child r) := by
  have hrank := rank_modify (finish_executors r hc) fun _ => rfl
  refine h.same (finish_history r hc) (fun p hp => ?_) hrank
  rcases List.mem_cons.mp hp with rfl | hp
  · rfl
  · split at hp
    · rw [List.mem_singleton.mp hp]
      rfl
    · cases hp

theorem Op.chronicled (op : Op f w f' w') (hs : Steered f w) (hp : Placed f w)
    (h : Chronicled w) : Chronicled w' := by
  have hone : ∀ {t : Instant} {a : Happening V} {o : Option Nat}, a.executor? = o →
      ∀ p ∈ [(t, a)], p.2.executor? = o := by
    intro _ _ _ ha p hp
    rw [List.mem_singleton.mp hp]
    exact ha
  cases op with
  | create name s =>
    exact h.same (List.append_nil _).symm (by simp) (rank_addExecutor s)
  | refuse e =>
    exact h.same (List.append_nil _).symm (by simp) (rank_modify (k := e) rfl fun _ => rfl)
  | enrol name mark hr hb =>
    exact h.same (List.append_nil _).symm (by simp) (rank_addChild _ name _ mark)
  | cancel hg =>
    exact h.same (cancel_history_of_granted hg) (hone rfl) (rank_congr (cancel_frame ..).2.1)
  | @ask _ _ e he hr =>
    -- Who is asked and does not run has been asked before.
    have hx := List.getElem?_eq_getElem he
    have hpos : 0 < w.rank e := by
      rw [rank_of_getElem? hx]
      cases hst : w.executors[e].state with
      | running => exact absurd (isRunning_iff.mpr ⟨_, hx, hst⟩) (Bool.eq_false_iff.mp hr)
      | _ => decide
    exact h.change rfl (hone rfl) (fun _ _ => rfl) ((h e).ask hpos w.now)
  | @drain _ _ e hr =>
    obtain ⟨x, hx, hst⟩ := isRunning_iff.mp hr
    have h0 : w.rank e = 0 := by rw [rank_of_getElem? hx, hst]; rfl
    refine h.change (e := e) (List.append_assoc ..) (fun p hp => ?_)
      (fun k hk => rank_modify_of_ne rfl hk) ?_
    · rcases List.mem_append.mp hp with hp | hp
      · exact hone rfl p hp
      · exact hone rfl p hp
    · rw [rank_of_getElem? ((List.getElem?_modify_eq ..).trans (congrArg _ hx))]
      exact (h0 ▸ h e).drain w.now
  | @close _ _ e x hx h0 =>
    have h1 : w.rank e = 1 := by rw [rank_of_getElem? hx, ((hs.steered hx).drains rfl).2]; rfl
    refine h.change (e := e) rfl (hone rfl)
      (fun k hk => rank_modify_of_ne (List.modify_modify_eq ..) hk) ?_
    have hm := List.modify_modify_eq (l := w.executors) (i := e)
      (f := fun x : Executor => { x with closed := true })
      (g := fun x : Executor => { x with state := .terminated })
    rw [rank_of_getElem? ((congrArg (·[e]?) hm).trans
      ((List.getElem?_modify_eq ..).trans (congrArg _ hx)))]
    exact (h1 ▸ h e).terminate w.now
  | @watch _ _ e x hx h0 =>
    exact h.same (List.append_nil _).symm (by simp) (rank_modify (k := e) rfl fun _ => rfl)
  | @start _ i child hc he hm hs' hr hd =>
    exact h.same (begin_history w i child) (hone rfl) (rank_congr (countRun_frame w i child).2.1)
  | poll hc | resume hc he hs' => exact h.same rfl (hone rfl) fun _ => rfl
  | pause rest hc he ho hp | sleep hc he hp hs' hk =>
    obtain ⟨-, hexecutors, -, -, -, -, -, hhistory, -⟩ := parkChild_frame _ hc
    exact h.same (hhistory.trans (List.append_nil _).symm) (by simp) (rank_congr hexecutors)
  | again value hc hk => exact h.same rfl (hone rfl) fun _ => rfl
  | @finish _ i child r hc he hr hk =>
    exact World.Chronicled.finish (w := w.modifyCell child.cell (·.leave r)) h r hc
  | stop hc he hb => exact h.finish _ hc
  | @openBatch _ _ e work bodies name hr hw hn =>
    have hf := openBatch_frame w e name work bodies
    refine h.same (l := []) ?_ (by simp) (rank_openBatch e name work bodies)
    rw [hf.2.2.2.2, List.append_nil]
  | grant count =>
    rw [addCancelledCells_cells]
    exact h
  | @terminate _ e hd =>
    -- A watcher whose turn it is is alive, so its executor is draining.
    have hl := hp.known (.watcher e) (List.mem_append_left _ List.mem_cons_self)
    obtain ⟨x, hx, -, hst⟩ := live_watcher.mp (hl.resolve_right (by simp))
    have h1 : w.rank e = 1 := by rw [rank_of_getElem? hx, hst]; rfl
    refine h.change (e := e) rfl (hone rfl) (fun k hk => rank_modify_of_ne rfl hk) ?_
    rw [rank_of_getElem? ((List.getElem?_modify_eq ..).trans (congrArg _ hx))]
    exact (h1 ▸ h e).terminate w.now
  | _ => exact h

theorem Reached.chronicled (h : Reached f w) : Chronicled w := by
  refine h.induct (P := fun _ w => Chronicled w) (fun jumps e => ?_) fun hr op hw =>
    op.chronicled hr.steered hr.placed hw
  exact ⟨rfl, rfl, rfl⟩

end TimedTasks

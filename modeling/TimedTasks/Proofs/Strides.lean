import TimedTasks.Proofs.Steady
/-!
Strides. The success of a run of a periodic task is two things, the end of the run and the setting
of the next due time, between which nothing else happens. A stride is a move, or this success as a
whole; by no other stride does such a run succeed or a due time change, and no other one leaves a
task without a due time to wait for. So a run made of strides tells which due time a task has.
-/

namespace TimedTasks

variable {V : Type}

namespace World

/-- Ends a run of a periodic task that has returned, and sets the next due time, if it can be
represented. -/
def succeed (w : World V) (child : Child V) (pace : Pace) (value : Option V) : World V :=
  let w' := (w.endRun child.cell).record (.ended child.cell (.returned value))
  match pace.next? (w.dueTime child) w.now with
  | some next =>
    w'.modifyCell child.cell fun cell =>
      { cell with mark := cell.mark.map fun m => .ofInstant m.origin next }
  | none => w'

end World

open World

/-- What an operation heeds that is no part of the success of a run of a periodic task: no such run
succeeds by it, it sets no due time, and a child that it leaves with none had none before. -/
structure Plain (f : Focus) (w : World V) (f' : Focus) (w' : World V) : Prop
    extends Heeds f w f' w' where
  succeeds : ∀ i r, f = .caller (some i) → f' ≠ .turn r
  marks : ∀ i, f = .turn (.child i) → f' = .turn (.child i) → ∀ c, w'.markOf? c = w.markOf? c
  strands : ∀ i child', f.task? = some (.child i) → f' = .caller none →
    w'.children[i]? = some child' → child'.stage = .stranded →
    ∃ child, w.children[i]? = some child ∧ child.stage = .stranded

/-- A move, or the success of a run of a periodic task. -/
inductive Stride : Focus → World V → Focus → World V → Prop
  | plain {f w f' w'} (op : Op f w f' w') (h : Plain f w f' w') : Stride f w f' w'
  | succeed {w i child pace runs} (value : Option V) (hc : w.children[i]? = some child)
      (hw : child.work = .periodic pace runs) :
      Stride (.caller (some i)) w (.turn (.child i)) (w.succeed child pace value)
  /-- The next due time cannot be represented, and the task is left to wait for none. -/
  | strand {w i child pace runs} (value : Option V) (hc : w.children[i]? = some child)
      (hw : child.work = .periodic pace runs) (he : child.hasEnded = false)
      (hn : pace.next? (w.dueTime child) w.now = none) :
      Stride (.caller (some i)) w (.caller none)
        ((w.succeed child pace value).parkChild i .stranded)

/-- Some strides, one after the other. -/
def Strides (f : Focus) (w : World V) (f' : Focus) (w' : World V) : Prop :=
  Relation.ReflTransGen (fun a b : Focus × World V => Stride a.1 a.2 b.1 b.2) (f, w) (f', w')

/-- The states to which strides lead from the start of a run. -/
def Strode (f : Focus) (w : World V) : Prop := ∃ jumps, Strides (.caller none) (start jumps) f w

variable {f f' f'' : Focus} {w w' w'' : World V} {i : Nat} {child : Child V} {pace : Pace}
  {runs : List (Body V)}

namespace World

/-! ## The success of a run -/

/-- No run of a task is under way. -/
def Rests (w : World V) (c : Nat) : Prop := (w.cells[c]?.map (·.phase)) ≠ some .running

theorem rests_endRun (w : World V) (c : Nat) : (w.endRun c).Rests c := by
  unfold Rests endRun modifyCell
  rw [List.getElem?_modify_eq]
  cases w.cells[c]? with
  | none => simp
  | some cell =>
    intro h
    have := Option.some.inj h
    dsimp only at this
    split at this
    · cases this
    · contradiction

theorem Rests.remark {c : Nat} (h : w.Rests c) (next : Instant) :
    (w.modifyCell c fun cell =>
      { cell with mark := cell.mark.map fun m => .ofInstant m.origin next }).Rests c := by
  unfold Rests at h ⊢
  rw [modifyCell, List.getElem?_modify_eq]
  cases hc : w.cells[c]? with
  | none => simp
  | some cell => rwa [hc] at h

/-- The due time of a periodic task is that of its mark. -/
theorem dueTime_periodic (hw : child.work = .periodic pace runs) (w : World V) :
    w.dueTime child = ((w.markOf? child.cell).map (·.due)).getD w.now := by
  unfold dueTime
  rw [hw]

theorem succeed_frame (w : World V) (child : Child V) (pace : Pace) (value : Option V) :
    (w.succeed child pace value).clock = w.clock ∧
    (w.succeed child pace value).children = w.children ∧
    (w.succeed child pace value).history =
      w.history ++ [(w.now, .ended child.cell (.returned value))] := by
  unfold succeed
  dsimp only
  split <;> exact ⟨rfl, rfl, rfl⟩

theorem succeed_rests (w : World V) (child : Child V) (pace : Pace) (value : Option V) :
    (w.succeed child pace value).Rests child.cell := by
  have h : ((w.endRun child.cell).record (.ended child.cell (.returned value))).Rests child.cell :=
    rests_endRun w child.cell
  unfold succeed
  dsimp only
  split
  · exact h.remark _
  · exact h

theorem markOf?_remark (w : World V) (c : Nat) (next : Instant) :
    (w.modifyCell c fun cell =>
        { cell with mark := cell.mark.map fun m => .ofInstant m.origin next }).markOf? c =
      (w.markOf? c).map fun m => .ofInstant m.origin next := by
  show Option.bind (w.cells.modify c _)[c]? _ = _
  rw [List.getElem?_modify_eq, markOf?]
  cases w.cells[c]? <;> rfl

/-- The success of a run of a task sets no due time but its own. -/
theorem succeed_markOf?_of_ne {c : Nat} (hc : c ≠ child.cell) (value : Option V) :
    (w.succeed child pace value).markOf? c = w.markOf? c := by
  have h : ((w.endRun child.cell).record (.ended child.cell (.returned value))).markOf? c =
      w.markOf? c := markOf?_modify (c := child.cell) rfl fun _ => rfl
  unfold succeed
  dsimp only
  split
  · rw [← h]
    show Option.bind (List.modify _ child.cell _)[c]? _ = _
    rw [List.getElem?_modify_ne _ _ (Ne.symm hc)]
    rfl
  · exact h

theorem succeed_markOf? {next : Instant} (hn : pace.next? (w.dueTime child) w.now = some next)
    (value : Option V) : (w.succeed child pace value).markOf? child.cell =
      (w.markOf? child.cell).map fun m => .ofInstant m.origin next := by
  unfold succeed
  simp only [hn]
  rw [markOf?_remark]
  exact congrArg _ (markOf?_modify (c := child.cell) rfl fun _ => rfl)

theorem succeed_markOf?_of_none (hn : pace.next? (w.dueTime child) w.now = none)
    (value : Option V) : (w.succeed child pace value).markOf? child.cell =
      w.markOf? child.cell := by
  unfold succeed
  simp only [hn]
  exact markOf?_modify (w := w) (c := child.cell) rfl fun _ => rfl

end World

/-! ## Strides are made of moves -/

theorem Moves.succeed (value : Option V) (hc : w.children[i]? = some child)
    (hw : child.work = .periodic pace runs) :
    Moves (.caller (some i)) w (.turn (.child i)) (w.succeed child pace value) := by
  have hk : child.work.kind = .periodic := by rw [hw]; rfl
  let w₁ := (w.endRun child.cell).record (.ended child.cell (.returned value))
  have hend : Moves (.caller (some i)) w (.turn (.child i)) w₁ :=
    Move.moves ⟨.again value hc hk, .turns⟩
  have hmark : w₁.markOf? child.cell = w.markOf? child.cell :=
    markOf?_modify (c := child.cell) rfl fun _ => rfl
  have hdue : w₁.dueTime child = w.dueTime child := by
    rw [dueTime_periodic hw, dueTime_periodic hw, hmark]
    rfl
  unfold World.succeed
  dsimp only
  split
  · rename_i next hn
    -- The due time is set right after the run.
    refine hend.trans (Move.moves ⟨.remark next hc hk, .marks hc ⟨value, pace, runs, next, ?_, hw,
      hdue ▸ hn, markOf?_remark ..⟩ fun c h => ?_⟩)
    · exact List.getLast?_concat ..
    · have := congrArg List.length (show w₁.history = w₁.history ++ _ from h)
      simp at this
  · exact hend

theorem Stride.moves (s : Stride f w f' w') : Moves f w f' w' := by
  cases s with
  | plain op h => exact Move.moves ⟨op, h.toHeeds⟩
  | succeed value hc hw => exact .succeed value hc hw
  | @strand _ i child pace runs value hc hw he hn =>
    have hk : child.work.kind = .periodic := by rw [hw]; rfl
    obtain ⟨hclock, hchildren, hhistory⟩ := w.succeed_frame child pace value
    have hnow : (w.succeed child pace value).now = w.now := congrArg (·.elapsed.nanos) hclock
    have hc' : (w.succeed child pace value).children[i]? = some child := by rw [hchildren, hc]
    refine (Moves.succeed value hc hw).trans (Move.moves
      ⟨.sleep hc' he (w.succeed_rests child pace value) (.inl rfl) hk, ?_⟩)
    refine .parks rfl rfl hc' ⟨?_, fun due hs => by cases hs⟩
    have hmark := succeed_markOf?_of_none hn value
    rw [dueTime_periodic hw, ← hmark, ← hnow] at hn
    unfold Timely dueTime
    rw [hw]
    refine ⟨_, value, ?_, hn⟩
    rw [hhistory, hnow]
    exact List.mem_append_right _ (List.mem_singleton_self _)

theorem Stride.strides (s : Stride f w f' w') : Strides f w f' w' := Relation.ReflTransGen.single s

namespace Strides

theorem refl : Strides f w f w := Relation.ReflTransGen.refl

theorem trans (h : Strides f w f' w') (h' : Strides f' w' f'' w'') : Strides f w f'' w'' :=
  Relation.ReflTransGen.trans h h'

theorem moves (h : Strides f w f' w') : Moves f w f' w' := by
  suffices ∀ b : Focus × World V,
      Relation.ReflTransGen (fun a b : Focus × World V => Stride a.1 a.2 b.1 b.2) (f, w) b →
        Moves f w b.1 b.2 from this (f', w') h
  intro b hb
  induction hb with
  | refl => exact .refl
  | tail _ hs ih => exact ih.trans hs.moves

end Strides

namespace Strode

theorem start (jumps : Bool) : Strode (.caller none) (World.start (V := V) jumps) := ⟨jumps, .refl⟩

theorem strides (h : Strode f w) (h' : Strides f w f' w') : Strode f' w' := by
  obtain ⟨jumps, hs⟩ := h
  exact ⟨jumps, hs.trans h'⟩

theorem walked (h : Strode f w) : Walked f w := by
  obtain ⟨jumps, hs⟩ := h
  exact ⟨jumps, hs.moves⟩

end Strode

/-- What every stride keeps, in a run from its start, holds later of what it holds of now. -/
theorem Strides.induct {P : Focus → World V → Prop} (h : Strides f w f' w') (hs : Strode f w)
    (base : P f w)
    (step : ∀ {f₁ w₁ f₂ w₂}, Strode f₁ w₁ → Stride f₁ w₁ f₂ w₂ → P f₁ w₁ → P f₂ w₂) : P f' w' := by
  suffices ∀ b : Focus × World V,
      Relation.ReflTransGen (fun a b : Focus × World V => Stride a.1 a.2 b.1 b.2) (f, w) b →
        Strode b.1 b.2 ∧ P b.1 b.2 from (this (f', w') h).2
  intro b hb
  induction hb with
  | refl => exact ⟨hs, base⟩
  | tail _ hstep ih => exact ⟨ih.1.strides hstep.strides, step ih.1 hstep ih.2⟩

/-! ## Operations that are no part of a success -/

namespace Plain

/-- Whoever acts goes on to act, no body is let go on, and no due time is set. -/
theorem stay (hh : ∀ c, w'.history ≠ w.history ++ [(w.now, .polled c)])
    (hm : ∀ c, w'.markOf? c = w.markOf? c) : Plain f w f w' where
  toHeeds := .stay hh hm
  succeeds i r hf hf' := by
    rw [hf] at hf'
    cases hf'
  marks i _ _ := hm
  strands i child' hf hf' := by
    rw [hf'] at hf
    cases hf

theorem same (hh : w'.history = w.history) (hc : w'.cells = w.cells) : Plain f w f w' := by
  refine stay (fun c h => ?_) fun c => by rw [markOf?, markOf?, hc]
  have := congrArg List.length (hh.symm.trans h)
  simp at this

/-- A caller acts, and goes on to act. -/
theorem of_caller {b : Option Nat} (h : Heeds (.caller b) w f' w') (hf' : f'.body? = b)
    (hr : ∀ r, f' ≠ .turn r) : Plain (.caller b) w f' w' where
  toHeeds := h
  succeeds i r _ := hr r
  marks i hf := by cases hf
  strands i child' hf hf'' := by
    subst hf''
    obtain rfl : none = b := hf'
    cases hf

/-- A caller makes a call. -/
theorem call {b : Option Nat} (hh : ∀ c, w'.history ≠ w.history ++ [(w.now, .polled c)]) :
    Plain (.caller b) w (.caller b) w' :=
  .of_caller (.call hh) rfl fun _ => Focus.noConfusion

/-- A call that befalls nobody. -/
theorem silent {b : Option Nat} (hh : w'.history = w.history) :
    Plain (.caller b) w (.caller b) w' :=
  .of_caller (.silent hh) rfl fun _ => Focus.noConfusion

/-- A caller enters the shutdown of an executor. -/
theorem enters {b : Option Nat} {e : Nat} : Plain (.caller b) w (.shutting b e) w' :=
  .of_caller .enters rfl fun _ => Focus.noConfusion

/-- A caller is through with the shutdown of an executor. -/
theorem departs {b : Option Nat} {e : Nat} (hp : w.Purged e)
    (hh : ∀ c, w'.history ≠ w.history ++ [(w.now, .polled c)]) :
    Plain (.shutting b e) w (.caller b) w' where
  toHeeds := .departs hp hh
  succeeds i r hf := by cases hf
  marks i hf := by cases hf
  strands i child' hf hf' := by
    obtain rfl := Focus.caller.inj hf'
    cases hf

/-- The turn of a task that is no child goes on or ends. -/
theorem other {r : TaskRef} (hr : ∀ i, r ≠ .child i) (hf' : f'.body? = none) :
    Plain (.turn r) w f' w' where
  toHeeds := .other hr hf'
  succeeds i r' hf := by cases hf
  marks i hf := absurd (Focus.turn.inj hf) (hr i)
  strands i child' hf := absurd (Option.some.inj hf) (hr i)

theorem waiter {j : Nat} (hf' : f'.body? = none) : Plain (.turn (.waiter j)) w f' w' :=
  other (fun _ => TaskRef.noConfusion) hf'

theorem watcher {e : Nat} (hf' : f'.body? = none) : Plain (.turn (.watcher e)) w f' w' :=
  other (fun _ => TaskRef.noConfusion) hf'

/-- The turn of a task begins. -/
theorem turns {r : TaskRef} : Plain (.caller none) w (.turn r) w' where
  toHeeds := .turns
  succeeds i r hf := by cases hf
  marks i hf := by cases hf
  strands i child' _ hf' := by cases hf'

/-- A body is called. -/
theorem calls {r : TaskRef} {i : Nat} (hh : ∀ c, w'.history ≠ w.history ++ [(w.now, .polled c)]) :
    Plain (.turn r) w (.caller (some i)) w' where
  toHeeds := .calls hh
  succeeds i r hf := by cases hf
  marks i _ hf' := by cases hf'
  strands i child' _ hf' := by cases hf'

/-- A body goes on. -/
theorem poll {c : Nat} (hf : f.leaving? = none) (hw : w.underWay c = true)
    (hh : w'.history = w.history ++ [(w.now, .polled c)])
    (hl : f.body? = some i → ∃ t, w.history.getLast? = some (t, .called c)) :
    Plain f w (.caller (some i)) w' where
  toHeeds := .poll hf hw hh hl
  succeeds i r _ := Focus.noConfusion
  marks i _ hf' := by cases hf'
  strands i child' _ hf' := by cases hf'

/-- A child ends its turn. -/
theorem ends (hf : f.task? = some (.child i)) (hl : f.leaving? = none)
    (ht : ∀ child, w'.children[i]? = some child → w'.Timely child ∧ w'.Spared child)
    (hs : ∀ child', w'.children[i]? = some child' → child'.stage = .stranded →
      ∃ child, w.children[i]? = some child ∧ child.stage = .stranded) :
    Plain f w (.caller none) w' where
  toHeeds := .ends hf hl ht
  succeeds k r _ := Focus.noConfusion
  marks k _ hf' := by cases hf'
  strands k child' hk _ hc := by
    rw [hf] at hk
    obtain rfl : i = k := by simpa using hk
    exact hs child' hc

/-- A child ends its last turn. -/
theorem retires (hf : f.task? = some (.child i)) (hl : f.leaving? = none)
    (he : ∀ child, w'.children[i]? = some child → child.hasEnded = true) :
    Plain f w (.caller none) w' where
  toHeeds := .retires hf hl he
  succeeds k r _ := Focus.noConfusion
  marks k _ hf' := by cases hf'
  strands k child' hk _ hc hs := by
    rw [hf] at hk
    obtain rfl : i = k := by simpa using hk
    have := he child' hc
    simp [Child.hasEnded, hs] at this

/-- A child is let wait. -/
theorem parks (hf : f.task? = some (.child i)) (hl : f.leaving? = none)
    (hc : w.children[i]? = some child) {s : Stage V} (hs : s = .stranded → child.stage = .stranded)
    (h : w.Timely { child with stage := s } ∧ w.Spared { child with stage := s }) :
    Plain f w (.caller none) (w.parkChild i s) where
  toHeeds := .parks hf hl hc h
  succeeds k r _ := Focus.noConfusion
  marks k _ hf' := by cases hf'
  strands k child' hk _ hc' hst := by
    rw [hf] at hk
    obtain rfl : i = k := by simpa using hk
    rw [(parkChild_frame s hc).2.2.2.1, List.getElem?_modify_eq, hc] at hc'
    obtain rfl := Option.some.inj hc'
    exact ⟨child, hc, hs hst⟩

end Plain

end TimedTasks

import TimedTasks.Proofs.UnderWay
/-!
Moves. An operation says what can be done in a state; in a run it is also done at its place: a
shutdown leaves no task behind that it stops, a child that ends its turn waits for what it is due
for, a body is let go on only in a run of its own, and a due time is set where a run has just ended.
A move is an operation that heeds this.
-/

namespace TimedTasks

variable {V : Type}

namespace World

/-- Whether every task of an executor that may run no more, and is not in a run, is cancelled. -/
def Purged (w : World V) (e : Nat) : Prop :=
  ∀ child ∈ w.children, child.executor = e → w.mayRun e child.work.kind = false →
    w.cancellable child.cell false = false

/-- Whether a child that does not act is where it should be: in a run if its body is suspended, with
its due time before it if it is periodic and waits for that, and else with none to be had after its
last run. -/
def Timely (w : World V) (child : Child V) : Prop :=
  match child.stage, child.work with
  | .suspended .., _ => w.underWay child.cell = true
  | .scheduled due, .periodic .. => w.now < due → w.dueTime child = due
  | .stranded, .periodic pace _ => ∃ t value,
    (t, .ended child.cell (.returned value)) ∈ w.history ∧ pace.next? (w.dueTime child) t = none
  | _, _ => True

/-- Whether a child may still run when its time comes, if it is periodic and waits for that. -/
def Spared (w : World V) (child : Child V) : Prop :=
  ∀ due, child.stage = .scheduled due → child.work.kind = .periodic → w.now < due →
    w.mayRun child.executor .periodic = true

/-- Whether the due time of a task is set as its pace has it, right after a run that succeeded. -/
def Reset (w w' : World V) (child : Child V) : Prop :=
  ∃ (value : Option V) (pace : Pace) (runs : List (Body V)) (next : Instant),
    w.history.getLast? = some (w.now, .ended child.cell (.returned value)) ∧
    child.work = .periodic pace runs ∧ pace.next? (w.dueTime child) w.now = some next ∧
    w'.markOf? child.cell = (w.markOf? child.cell).map fun m => .ofInstant m.origin next

end World

open World

/-- What an operation heeds in a run. -/
structure Heeds (f : Focus) (w : World V) (f' : Focus) (w' : World V) : Prop where
  purged : ∀ b e, f = .shutting b e → f' = .caller b → w.Purged e
  timely : ∀ i child, f.task? = some (.child i) → f' = .caller none →
    w'.children[i]? = some child → w'.Timely child ∧ w'.Spared child
  polls : ∀ i c, f' = .caller (some i) → w'.history = w.history ++ [(w.now, .polled c)] →
    w.underWay c = true ∧
      (f.body? = some i → ∃ t, w.history.getLast? = some (t, .called c))
  resets : ∀ i child, f = .turn (.child i) → f' = .turn (.child i) → w.children[i]? = some child →
    w'.markOf? child.cell = w.markOf? child.cell ∨ w.Reset w' child

def Move (f : Focus) (w : World V) (f' : Focus) (w' : World V) : Prop :=
  Op f w f' w' ∧ Heeds f w f' w'

/-- Some moves, one after the other. -/
def Moves (f : Focus) (w : World V) (f' : Focus) (w' : World V) : Prop :=
  Relation.ReflTransGen (fun a b : Focus × World V => Move a.1 a.2 b.1 b.2) (f, w) (f', w')

/-- The states to which moves lead from the start of a run. -/
def Walked (f : Focus) (w : World V) : Prop := ∃ jumps, Moves (.caller none) (start jumps) f w

variable {f f' f'' : Focus} {w w' w'' : World V}

theorem Move.op (h : Move f w f' w') : Op f w f' w' := h.1

theorem Move.heeds (h : Move f w f' w') : Heeds f w f' w' := h.2

theorem Move.moves (h : Move f w f' w') : Moves f w f' w' := Relation.ReflTransGen.single h

namespace Moves

theorem refl : Moves f w f w := Relation.ReflTransGen.refl

theorem trans (h : Moves f w f' w') (h' : Moves f' w' f'' w'') : Moves f w f'' w'' :=
  Relation.ReflTransGen.trans h h'

theorem ops (h : Moves f w f' w') : Ops f w f' w' :=
  Relation.ReflTransGen.mono (fun _ _ => And.left) _ _ h

/-- What every move keeps, in a run from its start, holds later of what it holds of now. -/
theorem induct {P : Focus → World V → Prop} (h : Moves f w f' w') (hr : Reached f w)
    (base : P f w)
    (step : ∀ {f₁ w₁ f₂ w₂}, Reached f₁ w₁ → Move f₁ w₁ f₂ w₂ → P f₁ w₁ → P f₂ w₂) : P f' w' := by
  suffices ∀ b : Focus × World V,
      Relation.ReflTransGen (fun a b : Focus × World V => Move a.1 a.2 b.1 b.2) (f, w) b →
        Reached b.1 b.2 ∧ P b.1 b.2 from (this (f', w') h).2
  intro b hb
  induction hb with
  | refl => exact ⟨hr, base⟩
  | tail _ hm ih => exact ⟨ih.1.op hm.op, step ih.1 hm ih.2⟩

end Moves

namespace Walked

theorem start (jumps : Bool) : Walked (.caller none) (World.start (V := V) jumps) := ⟨jumps, .refl⟩

theorem moves (h : Walked f w) (h' : Moves f w f' w') : Walked f' w' := by
  obtain ⟨jumps, hs⟩ := h
  exact ⟨jumps, hs.trans h'⟩

theorem reached (h : Walked f w) : Reached f w := by
  obtain ⟨jumps, hs⟩ := h
  exact ⟨jumps, hs.ops⟩

/-- What holds at the start of a run and is kept by every move holds in all its states. -/
theorem induct {P : Focus → World V → Prop} (h : Walked f w)
    (init : ∀ jumps, P (.caller none) (World.start jumps))
    (step : ∀ {f₁ w₁ f₂ w₂}, Reached f₁ w₁ → Move f₁ w₁ f₂ w₂ → P f₁ w₁ → P f₂ w₂) : P f w := by
  obtain ⟨jumps, hs⟩ := h
  exact hs.induct (.start jumps) (init jumps) step

end Walked

/-! ## Operations that have little to heed -/

namespace Heeds

/-- Whoever acts goes on to act, no body is let go on, and no due time is set. -/
theorem stay (hh : ∀ c, w'.history ≠ w.history ++ [(w.now, .polled c)])
    (hm : ∀ c, w'.markOf? c = w.markOf? c) : Heeds f w f w' where
  purged b e hf hf' := by
    rw [hf] at hf'
    cases hf'
  timely i child hf hf' := by
    rw [hf'] at hf
    cases hf
  polls i c _ hw := absurd hw (hh c)
  resets i child _ _ _ := .inl (hm _)

/-- A caller makes a call. -/
theorem call {b : Option Nat} (hh : ∀ c, w'.history ≠ w.history ++ [(w.now, .polled c)]) :
    Heeds (.caller b) w (.caller b) w' where
  purged b e hf := by cases hf
  timely i child hf hf' := by
    obtain rfl := Focus.caller.inj hf'
    cases hf
  polls i c _ hw := absurd hw (hh c)
  resets i child hf := by cases hf

/-- A call that befalls nobody. -/
theorem silent {b : Option Nat} (hh : w'.history = w.history) :
    Heeds (.caller b) w (.caller b) w' := by
  refine call fun c h => ?_
  have := congrArg List.length (hh.symm.trans h)
  simp at this

/-- The turn of a task that is no child goes on or ends. -/
theorem other {r : TaskRef} (hr : ∀ i, r ≠ .child i) (hf' : f'.body? = none) :
    Heeds (.turn r) w f' w' where
  purged b e h := by cases h
  timely i child h := absurd (Option.some.inj h) (hr i)
  polls i c h := by
    rw [h] at hf'
    cases hf'
  resets i child h := absurd (Focus.turn.inj h) (hr i)

/-- The turn of a task begins, or goes on after its body. -/
theorem turns {r : TaskRef} {b : Option Nat} : Heeds (.caller b) w (.turn r) w' where
  purged b e h := by cases h
  timely i child _ h := by cases h
  polls i c h := by cases h
  resets i child h := by cases h

/-- A body is called. -/
theorem calls {r : TaskRef} {i : Nat} (hh : ∀ c, w'.history ≠ w.history ++ [(w.now, .polled c)]) :
    Heeds (.turn r) w (.caller (some i)) w' where
  purged b e h := by cases h
  timely i child _ h := by cases h
  polls k c _ hw := absurd hw (hh c)
  resets k child _ h := by cases h

/-- A body goes on. -/
theorem poll {i c : Nat} (hf : f.leaving? = none) (hw : w.underWay c = true)
    (hh : w'.history = w.history ++ [(w.now, .polled c)])
    (hl : f.body? = some i → ∃ t, w.history.getLast? = some (t, .called c)) :
    Heeds f w (.caller (some i)) w' where
  purged b e h := by
    rw [h] at hf
    cases hf
  timely k child _ h := by cases h
  polls k d hk hd := by
    obtain rfl : i = k := by simpa using hk
    obtain rfl : c = d := by simpa using List.append_cancel_left (hh.symm.trans hd)
    exact ⟨hw, hl⟩
  resets k child _ h := by cases h

/-- A task sets its due time. -/
theorem marks {i : Nat} {child : Child V} (hc : w.children[i]? = some child)
    (hm : w.Reset w' child) (hh : ∀ c, w'.history ≠ w.history ++ [(w.now, .polled c)]) :
    Heeds (.turn (.child i)) w (.turn (.child i)) w' where
  purged b e h := by cases h
  timely k child _ h := by cases h
  polls k c _ hw := absurd hw (hh c)
  resets k child' hk _ hc' := by
    obtain rfl : i = k := by simpa using hk
    obtain rfl := Option.some.inj (hc.symm.trans hc')
    exact .inr hm

/-- A caller enters the shutdown of an executor. -/
theorem enters {b : Option Nat} {e : Nat} : Heeds (.caller b) w (.shutting b e) w' where
  purged b e h := by cases h
  timely i child _ h := by cases h
  polls i c h := by cases h
  resets i child h := by cases h

/-- A caller is through with the shutdown of an executor. -/
theorem departs {b : Option Nat} {e : Nat} (hp : w.Purged e)
    (hh : ∀ c, w'.history ≠ w.history ++ [(w.now, .polled c)]) :
    Heeds (.shutting b e) w (.caller b) w' where
  purged b' e' h _ := by
    obtain ⟨-, rfl⟩ := Focus.shutting.inj h
    exact hp
  timely i child hf hf' := by
    obtain rfl := Focus.caller.inj hf'
    cases hf
  polls i c _ hw := absurd hw (hh c)
  resets i child h := by cases h

/-- A child ends its turn. -/
theorem ends {i : Nat} (hf : f.task? = some (.child i)) (hl : f.leaving? = none)
    (ht : ∀ child, w'.children[i]? = some child → w'.Timely child ∧ w'.Spared child) :
    Heeds f w (.caller none) w' where
  purged b e h := by
    rw [h] at hl
    cases hl
  timely k child hk _ hc := by
    rw [hf] at hk
    obtain rfl : i = k := by simpa using hk
    exact ht child hc
  polls k c h := by cases h
  resets k child _ h := by cases h

/-- A child ends its last turn. -/
theorem retires {i : Nat} (hf : f.task? = some (.child i)) (hl : f.leaving? = none)
    (he : ∀ child, w'.children[i]? = some child → child.hasEnded = true) :
    Heeds f w (.caller none) w' := by
  refine ends hf hl fun child hc => ?_
  have hs : child.stage = .ended := by
    have he := he child hc
    cases hs : child.stage with
    | ended => rfl
    | _ => simp [Child.hasEnded, hs] at he
  exact ⟨by simp [Timely, hs], fun due h => by simp [hs] at h⟩

end Heeds

end TimedTasks

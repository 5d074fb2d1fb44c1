import TimedTasks.Proofs.Tending
/-!
The life of an executor. It closes in the middle of the shutdown that makes it drain, and it has
terminated only when it is closed and no child holds it up.
-/

namespace TimedTasks

variable {V : Type}

/-- The executor in the middle of whose shutdown a caller is. -/
def Focus.leaving? : Focus → Option Nat
  | .shutting _ e => some e
  | _ => none

@[simp]
theorem Focus.leaving?_eq_some_iff {f : Focus} {e : Nat} :
    f.leaving? = some e ↔ ∃ b, f = .shutting b e := by
  cases f <;> simp [leaving?]

/-- What holds of an executor, in the middle of its shutdown or not. -/
structure Executor.Steered (leaving : Prop) (x : Executor) : Prop where
  closed : x.closed = true → x.state ≠ .running
  leaves : x.closed = false → x.state ≠ .running → leaving
  drains : leaving → x.closed = false ∧ x.state = .draining
  terminated : x.state = .terminated → x.closed = true ∧ x.tracked = 0

namespace World

theorem isRunning_addChild {w : World V} {e : Nat} (hr : w.isRunning e = true) (name : String)
    (work : Work V) (mark : Option Mark) :
    (w.addChild e name work mark).1.isRunning e = true := by
  obtain ⟨y, hy, hrun⟩ := isRunning_iff.mp hr
  refine isRunning_iff.mpr ⟨_, (List.getElem?_modify_eq ..).trans (congrArg _ hy), ?_⟩
  exact hrun

structure Steered (f : Focus) (w : World V) : Prop where
  steered : ∀ {e : Nat} {x : Executor}, w.executors[e]? = some x →
    x.Steered (f.leaving? = some e)
  leaving : ∀ {e : Nat}, f.leaving? = some e → e < w.executors.length

variable {f f' : Focus} {w w' : World V}

namespace Steered

/-- A change to one executor, in the middle of no other one's shutdown. -/
theorem change (h : Steered f w) {e : Nat} {g : Executor → Executor}
    (executors : w'.executors = w.executors.modify e g)
    (others : ∀ k, k ≠ e → (f'.leaving? = some k ↔ f.leaving? = some k))
    (steered : ∀ x, w.executors[e]? = some x → x.Steered (f.leaving? = some e) →
      (g x).Steered (f'.leaving? = some e))
    (leaving : f'.leaving? = some e → e < w.executors.length) : Steered f' w' where
  steered {k y} hy := by
    rw [executors] at hy
    obtain ⟨x, hx, ⟨rfl, rfl⟩ | ⟨hne, rfl⟩⟩ := exists_getElem?_of_modify hy
    · exact steered x hx (h.steered hx)
    · rw [others k (Ne.symm hne)]
      exact h.steered hx
  leaving {k} hk := by
    rw [executors, List.length_modify]
    by_cases hke : k = e
    · subst hke
      exact leaving hk
    · exact h.leaving ((others k hke).mp hk)

theorem finish (h : Steered f w) (hf : f.leaving? = none) {i : Nat} {child : Child V}
    (r : RunEnd V) (hc : w.children[i]? = some child) :
    Steered (.caller none) (w.finish i child r) := by
  refine h.change (finish_executors r hc) (fun k _ => ?_) (fun x hx hs => ?_) (by simp)
  · rw [hf]; exact .rfl
  · rw [hf] at hs
    exact ⟨hs.closed, hs.leaves, by simp,
      fun ht => ⟨(hs.terminated ht).1, by simp [Executor.discharge, (hs.terminated ht).2]⟩⟩

theorem addChild (h : Steered f w) {e : Nat} (hr : w.isRunning e = true) (name : String)
    (work : Work V) (mark : Option Mark) : Steered f (w.addChild e name work mark).1 := by
  obtain ⟨y, hy, hrun⟩ := isRunning_iff.mp hr
  refine h.change (e := e) rfl (fun k _ => .rfl) (fun x hx hs => ?_) h.leaving
  obtain rfl := Option.some.inj (hy.symm.trans hx)
  exact ⟨hs.closed, hs.leaves, hs.drains, fun ht => by simp [hrun] at ht⟩

theorem openBatch (h : Steered f w) {e : Nat} (hr : w.isRunning e = true) (name : String)
    (work : Nat → Body V → Work V) (bodies : List (Body V)) :
    Steered f (w.openBatch e name work bodies) := by
  obtain ⟨hb, -⟩ := addBatchChildren_induct
    (P := fun w => Steered f w ∧ w.isRunning e = true) ⟨h, hr⟩ e name
    (work w.batches.length) 0 bodies fun w' name' body h' =>
      ⟨h'.1.addChild h'.2 name' _ none, isRunning_addChild h'.2 name' _ none⟩
  exact ⟨hb.steered, hb.leaving⟩

end Steered

end World

open World

variable {f f' : Focus} {w w' : World V}

theorem Op.steered (op : Op f w f' w') (h : Steered f w) : Steered f' w' := by
  cases op with
  | create name s =>
    refine ⟨fun hx => ?_, by simp⟩
    rcases getElem?_concat_iff.mp hx with hx | ⟨-, rfl⟩
    · exact h.steered hx
    · exact ⟨by simp, fun _ hs => absurd rfl hs, by simp, by simp⟩
  | refuse e =>
    exact h.change (e := e) rfl (fun _ _ => .rfl)
      (fun x _ hs => ⟨hs.closed, hs.leaves, hs.drains, hs.terminated⟩) h.leaving
  | enrol name mark hr hb => exact h.addChild hr name _ mark
  | cancel hg =>
    obtain ⟨-, hexecutors, -⟩ := cancel_frame w _ _
    exact ⟨fun hx => h.steered (hexecutors ▸ hx), fun hl => hexecutors ▸ h.leaving hl⟩
  | @drain b _ e hr =>
    obtain ⟨y, hy, hrun⟩ := isRunning_iff.mp hr
    refine h.change (e := e) rfl (fun k hk => ?_) (fun x hx hs => ?_)
      fun _ => (List.getElem?_eq_some_iff.mp hy).1
    · exact ⟨fun hl => absurd (Option.some.inj hl).symm hk, by simp⟩
    · obtain rfl := Option.some.inj (hy.symm.trans hx)
      have hc : y.closed = false := by
        cases hc : y.closed with
        | false => rfl
        | true => exact absurd hrun (hs.closed hc)
      exact ⟨fun h => by simp [hc] at h, fun _ _ => rfl, fun _ => ⟨hc, rfl⟩, by simp⟩
  | @close b _ e y hy h0 =>
    -- Two changes to one executor are one.
    refine h.change (e := e) (List.modify_modify_eq ..) (fun k hk => ?_) (fun x hx hs => ?_)
      (by simp)
    · exact ⟨by simp, fun hl => absurd (Option.some.inj hl).symm hk⟩
    · obtain rfl := Option.some.inj (hy.symm.trans hx)
      exact ⟨by simp, by simp, by simp,
        fun _ => ⟨rfl, h0⟩⟩
  | @watch b _ e y hy h0 =>
    refine h.change (e := e) rfl (fun k hk => ?_) (fun x hx hs => ?_) (by simp)
    · exact ⟨by simp, fun hl => absurd (Option.some.inj hl).symm hk⟩
    · have hd := (hs.drains rfl).2
      exact ⟨fun _ hr => by simp [hd] at hr, by simp, by simp,
        fun ht => by simp [hd] at ht⟩
  | @start _ i child hc he hm hs hr hd =>
    have hexecutors := (countRun_frame w i child).2.1
    exact ⟨fun hx => h.steered (hexecutors ▸ hx), by simp⟩
  | pause rest hc he ho hp | sleep hc he hp hs hk =>
    obtain ⟨-, hexecutors, -⟩ := parkChild_frame _ hc
    exact ⟨fun hx => h.steered (hexecutors ▸ hx), by simp⟩
  | @finish _ i child r hc he hr hk =>
    exact Steered.finish (f := .caller (some i)) (w := w.modifyCell child.cell (·.leave r))
      ⟨h.steered, h.leaving⟩ rfl r hc
  | stop hc he hb => exact h.finish rfl _ hc
  | openBatch name hr hw hn => exact h.openBatch hr name _ _
  | grant count =>
    rw [addCancelledCells_cells]
    exact ⟨h.steered, h.leaving⟩
  | @terminate _ e hd =>
    refine h.change (e := e) rfl (fun _ _ => .rfl) (fun x hx hs => ?_) (by simp)
    have hd' : x.closed = true ∧ x.tracked = 0 := by simpa [isDrained, hx] using hd
    exact ⟨by simp, fun hc => by simp [hd'.1] at hc, by simp,
      fun _ => hd'⟩
  | _ => exact ⟨h.steered, h.leaving⟩

theorem Reached.steered (h : Reached f w) : Steered f w := by
  refine h.induct (P := Steered) (fun jumps => ?_) fun _ op hw => op.steered hw
  exact ⟨fun hx => by simp [World.start] at hx, by simp⟩

end TimedTasks

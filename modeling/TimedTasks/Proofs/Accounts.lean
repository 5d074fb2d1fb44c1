import TimedTasks.Proofs.Sleep
/-!
The books of an executor. Its registry holds its children that have not ended, each once; and every
child that has ended is counted once, under the ending that its cell settled with.
-/

namespace TimedTasks

theorem countP_modify {α : Type} {l : List α} {i : Nat} {a : α} {f : α → α} (p : α → Bool)
    (h : l[i]? = some a) :
    (l.modify i f).countP p + (p a).toNat = l.countP p + (p (f a)).toNat := by
  induction l generalizing i with
  | nil => cases h
  | cons b l ih =>
    cases i with
    | zero =>
      obtain rfl := Option.some.inj h
      rw [List.modify_zero_cons, List.countP_cons, List.countP_cons]
      cases p b <;> cases p (f b) <;> simp
    | succ i =>
      have := ih (i := i) h
      rw [List.modify_succ_cons, List.countP_cons, List.countP_cons]
      omega

/-- The tasks counted under an ending. -/
def Counters.ended (c : Counters) : Ending → Nat
  | .completed => c.completed
  | .failed => c.failed
  | .cancelled => c.cancelled

theorem Counters.ended_countEnding (c : Counters) (k k' : Ending) :
    (World.countEnding c (some k)).ended k' = c.ended k' + (k == k').toNat := by
  cases k <;> cases k' <;> rfl

variable {V : Type}

namespace World

/-- How many children of an executor have not ended. -/
def unended (w : World V) (e : Nat) : Nat :=
  w.children.countP fun child => child.executor == e && !child.hasEnded

/-- How many children of an executor have ended, and have their cells settled in some way. -/
def endedAs (w : World V) (e : Nat) (k : Ending) : Nat :=
  w.children.countP fun child =>
    child.executor == e && child.hasEnded && w.endingOf child.cell == some k

def admitted (w : World V) (e : Nat) : Nat := w.children.countP fun child => child.executor == e

/-- The books of an executor are right. -/
structure Balanced (w : World V) (e : Nat) (x : Executor) : Prop where
  nodup : x.registry.Nodup
  registry : ∀ i, i ∈ x.registry ↔
    ∃ child, w.children[i]? = some child ∧ child.executor = e ∧ child.hasEnded = false
  unended : x.registry.length = w.unended e
  tracked : x.tracked = w.unended e
  submitted : x.counters.submitted = w.admitted e
  ended : ∀ k, x.counters.ended k = w.endedAs e k

def Audited (w : World V) : Prop :=
  ∀ (e : Nat) (x : Executor), w.executors[e]? = some x → w.Balanced e x

variable {w w' : World V}

/-- Whether two states of an executor show the same books. -/
structure SameBooks (x x' : Executor) : Prop where
  registry : x'.registry = x.registry
  tracked : x'.tracked = x.tracked
  submitted : x'.counters.submitted = x.counters.submitted
  ended : ∀ k, x'.counters.ended k = x.counters.ended k

theorem SameBooks.refl (x : Executor) : SameBooks x x := ⟨rfl, rfl, rfl, fun _ => rfl⟩

/-- The cells of the children that have ended are settled. -/
def EndedSettled (w : World V) : Prop :=
  ∀ child ∈ w.children, child.hasEnded = true → w.isSettled child.cell = true

theorem Tended.endedSettled {body : Option Nat} (h : Tended body w) (ho : Owned w) :
    EndedSettled w := by
  intro child hc he
  obtain ⟨i, hi⟩ := List.mem_iff_getElem?.mp hc
  have hcell := List.getElem?_eq_getElem (ho.cell_lt hi)
  rw [isSettled_eq, hcell]
  exact (h.tends hi hcell).settled he

theorem Later.endingOf (h : Later w w') {c : Nat} (hs : w.isSettled c = true) :
    w'.endingOf c = w.endingOf c := by
  obtain ⟨o, ho⟩ := Option.isSome_iff_exists.mp hs
  rw [World.endingOf, World.endingOf, ho, h.outcomeOf ho]

/-- The children that have ended keep their endings. -/
theorem Later.endedAs (hl : Later w w') (hs : EndedSettled w) (l : List (Child V))
    (hsub : ∀ child ∈ l, child.hasEnded = true → child ∈ w.children) (e : Nat) (k : Ending) :
    (l.countP fun child =>
        child.executor == e && child.hasEnded && w'.endingOf child.cell == some k) =
      l.countP fun child =>
        child.executor == e && child.hasEnded && w.endingOf child.cell == some k := by
  apply List.countP_congr
  intro child hc
  cases he : child.hasEnded with
  | false => simp
  | true => rw [hl.endingOf (hs child (hsub child hc he) he)]

/-- The cell of a child that ends is settled. -/
theorem finish_isSettled {i : Nat} {child : Child V} (r : RunEnd V)
    (hc : w.children[i]? = some child) (hlt : child.cell < w.cells.length) :
    (w.finish i child r).isSettled child.cell = true := by
  rw [isSettled_eq, finish_cells r hc, List.getElem?_modify_eq, List.getElem?_eq_getElem hlt]
  exact Cell.conclude_isSome _ _

/-- What the books say of a child. -/
def tag (child : Child V) : Nat × Nat × Bool := (child.executor, child.cell, child.hasEnded)

theorem registered_iff {w : World V} {e i : Nat} :
    (∃ child, w.children[i]? = some child ∧ child.executor = e ∧ child.hasEnded = false) ↔
      ∃ c, w.children[i]?.map tag = some (e, c, false) := by
  cases w.children[i]? <;> simp [tag]

/-! ## Children that come or end -/

section Counts

variable (k e : Nat) (name : String) (work : Work V) (mark : Option Mark)

/-- The child that comes, and where it stands. -/
theorem addChild_children (w : World V) :
    ∃ new : Child V, (w.addChild k name work mark).1.children = w.children ++ [new] ∧
      new.executor = k ∧ new.hasEnded = false := ⟨_, rfl, rfl, rfl⟩

theorem unended_addChild (w : World V) :
    (w.addChild k name work mark).1.unended e = w.unended e + (k == e).toNat := by
  obtain ⟨new, hchildren, hk, hnew⟩ := addChild_children k name work mark w
  rw [World.unended, hchildren, List.countP_append, List.countP_singleton, hk, hnew]
  cases k == e <;> rfl

theorem admitted_addChild (w : World V) :
    (w.addChild k name work mark).1.admitted e = w.admitted e + (k == e).toNat := by
  obtain ⟨new, hchildren, hk, -⟩ := addChild_children k name work mark w
  rw [World.admitted, hchildren, List.countP_append, List.countP_singleton, hk]
  cases k == e <;> rfl

theorem endedAs_addChild (hs : EndedSettled w) (o : Ending) :
    (w.addChild k name work mark).1.endedAs e o = w.endedAs e o := by
  obtain ⟨new, hchildren, -, hnew⟩ := addChild_children k name work mark w
  rw [World.endedAs, hchildren, List.countP_append, List.countP_singleton, hnew,
    (addChild_later w k name work mark).endedAs hs w.children fun _ hc _ => hc]
  simp [World.endedAs]

variable {k e} {i : Nat} {child : Child V} (r : RunEnd V) (hc : w.children[i]? = some child)
  (he : child.hasEnded = false)

include hc

theorem countP_finish (p : Child V → Bool) :
    (w.finish i child r).children.countP p + (p child).toNat =
      w.children.countP p + (p { child with stage := .ended }).toNat := by
  rw [(finish_frame r hc).2.1]
  exact countP_modify p hc

theorem admitted_finish : (w.finish i child r).admitted e = w.admitted e :=
  Nat.add_right_cancel (countP_finish r hc fun y => y.executor == e)

include he

theorem unended_finish :
    (w.finish i child r).unended e + (child.executor == e).toNat = w.unended e := by
  have hcount := countP_finish r hc fun y => y.executor == e && !y.hasEnded
  have hend : ({ child with stage := .ended } : Child V).hasEnded = true := rfl
  rw [he, hend, Bool.not_false, Bool.not_true, Bool.and_true, Bool.and_false] at hcount
  exact hcount

/-- The cell may be settled by this very operation, so the new endings are counted on both sides. -/
theorem endedAs_finish (hs : EndedSettled w) {o : Ending}
    (ho : (w.finish i child r).endingOf child.cell = some o) (k : Ending) :
    (w.finish i child r).endedAs e k =
      w.endedAs e k + (child.executor == e && o == k).toNat := by
  have hcount := countP_finish r hc fun y =>
    y.executor == e && y.hasEnded && (w.finish i child r).endingOf y.cell == some k
  have hend : ({ child with stage := .ended } : Child V).hasEnded = true := rfl
  rw [(finish_later r hc he).endedAs hs w.children fun _ hc _ => hc] at hcount
  rw [he, hend, ho, Bool.and_true, Bool.and_false, Bool.false_and] at hcount
  exact hcount

end Counts

namespace Balanced

variable {e : Nat} {x x' : Executor}

/-- No child comes or ends. -/
theorem keep (h : w.Balanced e x) (hx : SameBooks x x') (hl : Later w w') (hs : EndedSettled w)
    (children : w'.children.map tag = w.children.map tag) : w'.Balanced e x' := by
  have hcount : ∀ p : Nat × Nat × Bool → Bool,
      w'.children.countP (p ∘ tag) = w.children.countP (p ∘ tag) := by
    intro p
    rw [← List.countP_map, ← List.countP_map, children]
  refine ⟨hx.registry ▸ h.nodup, fun i => ?_, ?_, ?_, ?_, fun k => ?_⟩
  · have hi : w'.children[i]?.map tag = w.children[i]?.map tag := by
      rw [← List.getElem?_map, ← List.getElem?_map, children]
    rw [hx.registry, h.registry, registered_iff, registered_iff, hi]
  · exact hx.registry ▸ h.unended.trans (hcount fun t => t.1 == e && !t.2.2).symm
  · exact hx.tracked.trans (h.tracked.trans (hcount fun t => t.1 == e && !t.2.2).symm)
  · exact hx.submitted.trans (h.submitted.trans (hcount fun t => t.1 == e).symm)
  · rw [hx.ended, h.ended, World.endedAs, World.endedAs,
      ← hl.endedAs hs w.children (fun _ hc _ => hc)]
    exact (hcount fun t => t.1 == e && t.2.2 && w'.endingOf t.2.1 == some k).symm

/-- A child of another executor comes. -/
theorem addChild_other (h : w.Balanced e x) (hs : EndedSettled w) {k : Nat} (hk : k ≠ e)
    (name : String) (work : Work V) (mark : Option Mark) :
    (w.addChild k name work mark).1.Balanced e x := by
  have hke := beq_eq_false_iff_ne.mpr hk
  have hu := unended_addChild k e name work mark w
  have ha := admitted_addChild k e name work mark w
  rw [hke] at hu ha
  refine ⟨h.nodup, fun i => ?_, h.unended.trans hu.symm, h.tracked.trans hu.symm,
    h.submitted.trans ha.symm, fun o => (h.ended o).trans (endedAs_addChild k e _ _ _ hs o).symm⟩
  obtain ⟨new, hchildren, hnew, -⟩ := addChild_children k name work mark w
  rw [h.registry, hchildren]
  constructor
  · rintro ⟨child, hc, he⟩
    exact ⟨child, getElem?_concat_iff.mpr (.inl hc), he⟩
  · rintro ⟨child, hc, he⟩
    rcases getElem?_concat_iff.mp hc with hc | ⟨-, rfl⟩
    · exact ⟨child, hc, he⟩
    · exact absurd (hnew.symm.trans he.1) hk

/-- A child of the executor comes. -/
theorem addChild_own (h : w.Balanced e x) (hs : EndedSettled w) (name : String) (work : Work V)
    (mark : Option Mark) :
    (w.addChild e name work mark).1.Balanced e { x with
      registry := x.registry ++ [w.children.length]
      tracked := x.tracked + 1
      nextId := x.nextId + 1
      counters := { x.counters with submitted := x.counters.submitted + 1 } } := by
  have hu := unended_addChild e e name work mark w
  have ha := admitted_addChild e e name work mark w
  rw [beq_self_eq_true] at hu ha
  have hlt : w.children.length ∉ x.registry := by
    intro hm
    obtain ⟨child, hc, -⟩ := (h.registry _).mp hm
    exact Nat.lt_irrefl _ (List.getElem?_eq_some_iff.mp hc).1
  refine ⟨?_, fun i => ?_, ?_, ?_, ?_, fun o => ?_⟩
  · refine List.nodup_append.mpr ⟨h.nodup, List.pairwise_singleton _ _, ?_⟩
    rintro a ha b hb rfl
    exact hlt (List.mem_singleton.mp hb ▸ ha)
  · obtain ⟨new, hchildren, hk, hnew⟩ := addChild_children e name work mark w
    rw [List.mem_append, List.mem_singleton, h.registry, hchildren]
    constructor
    · rintro (⟨child, hc, he⟩ | hi)
      · exact ⟨child, getElem?_concat_iff.mpr (.inl hc), he⟩
      · exact ⟨new, getElem?_concat_iff.mpr (.inr ⟨hi, rfl⟩), hk, hnew⟩
    · rintro ⟨child, hc, he⟩
      exact (getElem?_concat_iff.mp hc).imp (fun hc => ⟨child, hc, he⟩) And.left
  · rw [hu, List.length_append, h.unended]
    rfl
  · rw [hu, ← h.tracked]
    rfl
  · rw [ha, ← h.submitted]
    rfl
  · rw [endedAs_addChild e e _ _ _ hs, ← h.ended]
    cases o <;> rfl

/-- The child `i` ends, of another executor. -/
theorem finish_other (h : w.Balanced e x) (ho : Owned w) (hs : EndedSettled w) {i : Nat}
    {child : Child V} (r : RunEnd V) (hc : w.children[i]? = some child)
    (he : child.hasEnded = false) (hk : child.executor ≠ e) :
    (w.finish i child r).Balanced e x := by
  have hke := beq_eq_false_iff_ne.mpr hk
  obtain ⟨o, ho⟩ := Option.isSome_iff_exists.mp (finish_isSettled r hc (ho.cell_lt hc))
  have hu := unended_finish (e := e) r hc he
  rw [hke] at hu
  refine ⟨h.nodup, fun j => ?_, h.unended.trans hu.symm, h.tracked.trans hu.symm,
    h.submitted.trans (admitted_finish r hc).symm, fun o' => ?_⟩
  · rw [h.registry, (finish_frame r hc).2.1]
    constructor
    · rintro ⟨y, hy, hye, hyn⟩
      have hij : i ≠ j := by
        rintro rfl
        obtain rfl := Option.some.inj (hc.symm.trans hy)
        exact hk hye
      exact ⟨y, (List.getElem?_modify_ne _ _ hij).trans hy, hye, hyn⟩
    · rintro ⟨y, hy, hye, hyn⟩
      obtain ⟨z, hz, ⟨-, rfl⟩ | ⟨-, rfl⟩⟩ := exists_getElem?_of_modify hy
      · cases hyn
      · exact ⟨_, hz, hye, hyn⟩
  · rw [h.ended, endedAs_finish r hc he hs (congrArg (Option.map _) ho), hke]
    rfl

/-- The child `i` of the executor ends. -/
theorem finish_own (h : w.Balanced e x) (ho : Owned w) (hs : EndedSettled w) {i : Nat}
    {child : Child V} (r : RunEnd V) (hc : w.children[i]? = some child)
    (he : child.hasEnded = false) (hk : child.executor = e) :
    (w.finish i child r).Balanced e
      (x.discharge i ((w.finish i child r).endingOf child.cell)) := by
  have hmem : i ∈ x.registry := (h.registry i).mpr ⟨child, hc, hk, he⟩
  obtain ⟨o, ho⟩ := Option.isSome_iff_exists.mp (finish_isSettled r hc (ho.cell_lt hc))
  have hend : (w.finish i child r).endingOf child.cell = some o.ending := congrArg _ ho
  have hu := unended_finish (e := e) r hc he
  rw [beq_iff_eq.mpr hk] at hu
  rw [hend]
  refine ⟨h.nodup.erase i, fun j => ?_, ?_, ?_, ?_, fun o' => ?_⟩
  · refine h.nodup.mem_erase_iff.trans ?_
    rw [h.registry, (finish_frame r hc).2.1]
    constructor
    · rintro ⟨hne, y, hy, hye⟩
      exact ⟨y, (List.getElem?_modify_ne _ _ (Ne.symm hne)).trans hy, hye⟩
    · rintro ⟨y, hy, hye, hyn⟩
      obtain ⟨z, hz, ⟨-, rfl⟩ | ⟨hne, rfl⟩⟩ := exists_getElem?_of_modify hy
      · cases hyn
      · exact ⟨Ne.symm hne, _, hz, hye, hyn⟩
  · show (x.registry.erase i).length = _
    rw [List.length_erase_of_mem hmem, h.unended, ← hu]
    rfl
  · show x.tracked - 1 = _
    rw [h.tracked, ← hu]
    rfl
  · show (countEnding x.counters _).submitted = _
    rw [admitted_finish r hc, ← h.submitted]
    cases o.ending <;> rfl
  · show (countEnding x.counters _).ended o' = _
    rw [Counters.ended_countEnding, h.ended, endedAs_finish r hc he hs hend, beq_iff_eq.mpr hk,
      Bool.true_and]

/-- A new executor has no children, since no child belongs to an executor that there was not. -/
theorem of_new (ho : Owned w) (settings : Settings) (origin : Instant) :
    w.Balanced w.executors.length { settings, origin } := by
  have hn : ∀ child ∈ w.children, (child.executor == w.executors.length) = false := by
    intro child hc
    obtain ⟨i, hi⟩ := List.mem_iff_getElem?.mp hc
    exact beq_eq_false_iff_ne.mpr (Nat.ne_of_lt (ho.executor_lt hi))
  have hu : w.unended w.executors.length = 0 :=
    List.countP_eq_zero.mpr fun child hc => by simp [hn child hc]
  refine ⟨.nil, fun i => ⟨by simp, ?_⟩, hu.symm, hu.symm, ?_, fun o => ?_⟩
  · rintro ⟨child, hc, he, -⟩
    exact absurd he (Nat.ne_of_lt (ho.executor_lt hc))
  · exact (List.countP_eq_zero.mpr fun child hc => by simp [hn child hc]).symm
  · have h0 : w.endedAs w.executors.length o = 0 :=
      List.countP_eq_zero.mpr fun child hc => by simp [hn child hc]
    rw [h0]
    cases o <;> rfl

end Balanced

namespace Audited

/-- The books stay as they are. -/
theorem keep (h : Audited w) (hl : Later w w') (hs : EndedSettled w)
    (executors : ∀ (e : Nat) (x' : Executor), w'.executors[e]? = some x' →
      ∃ x, w.executors[e]? = some x ∧ SameBooks x x')
    (children : w'.children.map tag = w.children.map tag) : Audited w' := by
  intro e x' hx'
  obtain ⟨x, hx, hb⟩ := executors e x' hx'
  exact (h e x hx).keep hb hl hs children

/-- Nothing happens to an executor. -/
theorem same (h : Audited w) (hl : Later w w') (hs : EndedSettled w)
    (executors : w'.executors = w.executors)
    (children : w'.children.map tag = w.children.map tag) : Audited w' :=
  h.keep hl hs (fun _ _ hx => ⟨_, executors ▸ hx, .refl _⟩) children

/-- An executor changes, but not its books. -/
theorem change (h : Audited w) (hl : Later w w') (hs : EndedSettled w) {e : Nat}
    {g : Executor → Executor} (executors : w'.executors = w.executors.modify e g)
    (hg : ∀ x, SameBooks x (g x)) (children : w'.children.map tag = w.children.map tag) :
    Audited w' := by
  refine h.keep hl hs (fun k x' hx => ?_) children
  rw [executors] at hx
  obtain ⟨x, hx', ⟨-, rfl⟩ | ⟨-, rfl⟩⟩ := exists_getElem?_of_modify hx
  · exact ⟨x, hx', hg x⟩
  · exact ⟨_, hx', .refl _⟩

theorem addChild (h : Audited w) (hs : EndedSettled w) (e : Nat) (name : String) (work : Work V)
    (mark : Option Mark) : Audited (w.addChild e name work mark).1 := by
  intro k x' hx'
  obtain ⟨x, hx, ⟨hk, rfl⟩ | ⟨hk, rfl⟩⟩ := exists_getElem?_of_modify
    (show (w.executors.modify e _)[k]? = some x' from hx')
  · exact hk ▸ (h k _ hx).addChild_own hs name work mark
  · exact (h k _ hx).addChild_other hs hk name work mark

theorem finish (h : Audited w) (ho : Owned w) (hs : EndedSettled w) {i : Nat} {child : Child V}
    (r : RunEnd V) (hc : w.children[i]? = some child) (he : child.hasEnded = false) :
    Audited (w.finish i child r) := by
  intro k x' hx'
  have hx₁ := hx'
  rw [finish_executors r hc] at hx₁
  obtain ⟨x, hx, ⟨hk, rfl⟩ | ⟨hk, rfl⟩⟩ := exists_getElem?_of_modify hx₁
  · exact (h k _ hx).finish_own ho hs r hc he hk
  · exact (h k _ hx).finish_other ho hs r hc he hk

end Audited

theorem Audited.parkChild (h : Audited w) (hs : EndedSettled w) {i : Nat} {child : Child V}
    {s : Stage V} (hc : w.children[i]? = some child) (he : child.hasEnded = false)
    (hn : ∀ x : Child V, ({ x with stage := s } : Child V).hasEnded = false) :
    Audited (w.parkChild i s) := by
  obtain ⟨-, hexecutors, -, hchildren, -⟩ := parkChild_frame s hc
  refine h.same (parkChild_later s hc he) hs hexecutors ?_
  rw [hchildren]
  apply map_modify_eq
  intro x hx
  obtain rfl := Option.some.inj (hc.symm.trans hx)
  rw [tag, tag, he, hn]

theorem EndedSettled.addChild (h : EndedSettled w) (e : Nat) (name : String)
    (work : Work V) (mark : Option Mark) : EndedSettled (w.addChild e name work mark).1 := by
  intro child hc he
  rcases List.mem_append.mp (show child ∈ w.children ++ [_] from hc) with hc | hc
  · exact (addChild_later w e name work mark).isSettled (h child hc he)
  · rw [List.mem_singleton.mp hc] at he
    cases he

theorem Audited.openBatch (h : Audited w) (hs : EndedSettled w) (ho : Owned w) {e : Nat}
    (he : e < w.executors.length) (name : String) (work : Nat → Body V → Work V)
    (bodies : List (Body V)) : Audited (w.openBatch e name work bodies) := by
  obtain ⟨hb, -⟩ := addBatchChildren_induct (P := fun w =>
      Audited w ∧ EndedSettled w ∧ Owned w ∧ e < w.executors.length) ⟨h, hs, ho, he⟩ e
    name (work w.batches.length) 0 bodies fun w' name' body h' =>
      ⟨h'.1.addChild h'.2.1 e name' _ none, h'.2.1.addChild e name' _ none,
        h'.2.2.1.addChild h'.2.2.2 name' _ none,
        Nat.lt_of_lt_of_le h'.2.2.2 (addChild_later w' e name' _ none).executors.length_le⟩
  intro k x hx
  have hk := hb k x hx
  exact ⟨hk.nodup, hk.registry, hk.unended, hk.tracked, hk.submitted, hk.ended⟩

end World

open World

variable {f f' : Focus} {w w' : World V}

theorem Op.audited (op : Op f w f' w') (ho : Owned w) (hs : EndedSettled w) (h : Audited w) :
    Audited w' := by
  have hl := op.later
  cases op with
  | create name s =>
    intro e x hx
    rcases getElem?_concat_iff.mp hx with hx | ⟨rfl, rfl⟩
    · exact (h e x hx).keep (.refl x) hl hs rfl
    · have hn := Balanced.of_new ho s w.now
      exact ⟨hn.nodup, hn.registry, hn.unended, hn.tracked, hn.submitted, hn.ended⟩
  | refuse e =>
    exact h.change hl hs (e := e) rfl (fun x => ⟨rfl, rfl, rfl, fun k => by cases k <;> rfl⟩) rfl
  | enrol name mark hr hb => exact h.addChild hs _ name _ mark
  | cancel hg =>
    obtain ⟨-, hexecutors, hchildren, -⟩ := cancel_frame w _ _
    exact h.same hl hs hexecutors (by rw [hchildren])
  | @drain _ _ e hr =>
    exact h.change hl hs (e := e) rfl (fun _ => ⟨rfl, rfl, rfl, fun _ => rfl⟩) rfl
  | @close _ _ e x hx h0 =>
    refine h.change hl hs (e := e) (List.modify_modify_eq ..) (fun _ => ?_) rfl
    exact ⟨rfl, rfl, rfl, fun _ => rfl⟩
  | @watch _ _ e x hx h0 =>
    exact h.change hl hs (e := e) rfl (fun _ => ⟨rfl, rfl, rfl, fun _ => rfl⟩) rfl
  | @start _ i child hc he hm hs' hr hd =>
    refine h.same hl hs (countRun_frame w i child).2.1 ?_
    exact (congrArg (List.map tag) (countRun_children w i child)).trans
      (map_modify_eq fun _ _ => rfl)
  | pause rest hc he ho' hp => exact h.parkChild hs hc he fun _ => rfl
  | sleep hc he hp hs' hk => exact h.parkChild hs hc he (Child.hasEnded_of_sleep hs')
  | yield hc he hp hk =>
    refine h.same hl hs rfl (map_modify_eq fun x hx => ?_)
    obtain rfl := Option.some.inj (hc.symm.trans hx)
    rw [tag, tag, he]
    rfl
  | @finish _ i child r hc he hr hk =>
    have hl₁ := leave_later w child.cell r
    have h₁ := h.same hl₁ hs rfl rfl
    have ho₁ := ho.of_later hl₁ rfl (List.length_modify ..) rfl
    have hs₁ : EndedSettled (w.modifyCell child.cell (·.leave r)) := fun child hc he =>
      hl₁.isSettled (hs child hc he)
    exact h₁.finish ho₁ hs₁ r hc he
  | stop hc he hb => exact h.finish ho hs _ hc he
  | openBatch name hr hw hn =>
    obtain ⟨x, hx, -⟩ := isRunning_iff.mp hr
    exact h.openBatch hs ho (List.getElem?_eq_some_iff.mp hx).1 name _ _
  | grant count =>
    rw [addCancelledCells_cells] at hl ⊢
    exact h.same hl hs rfl rfl
  | @terminate _ e hd =>
    exact h.change hl hs (e := e) rfl (fun _ => ⟨rfl, rfl, rfl, fun _ => rfl⟩) rfl
  | _ => exact h.same hl hs rfl rfl

theorem Reached.endedSettled (h : Reached f w) : EndedSettled w := h.tended.endedSettled h.owned

theorem Reached.audited (h : Reached f w) : Audited w := by
  refine h.induct (P := fun _ w => Audited w) (fun jumps e x hx => ?_) fun hr op hw =>
    op.audited hr.owned hr.endedSettled hw
  simp [World.start] at hx

/-! ## Totals -/

/-- A child has ended in one way, or it has not ended. -/
theorem World.admitted_eq (hs : EndedSettled w) (e : Nat) :
    w.admitted e =
      w.endedAs e .completed + w.endedAs e .failed + w.endedAs e .cancelled + w.unended e := by
  suffices ∀ l : List (Child V), (∀ child ∈ l, child ∈ w.children) →
      l.countP (fun child => child.executor == e) =
        l.countP (fun child =>
          child.executor == e && child.hasEnded && w.endingOf child.cell == some .completed) +
        l.countP (fun child =>
          child.executor == e && child.hasEnded && w.endingOf child.cell == some .failed) +
        l.countP (fun child =>
          child.executor == e && child.hasEnded && w.endingOf child.cell == some .cancelled) +
        l.countP (fun child => child.executor == e && !child.hasEnded) from this _ fun _ => id
  intro l hl
  induction l with
  | nil => rfl
  | cons child l ih =>
    have := ih fun x hx => hl x (List.mem_cons_of_mem _ hx)
    simp only [List.countP_cons]
    cases hc : child.executor == e with
    | false => simpa using this
    | true =>
      cases he : child.hasEnded with
      | false =>
        simp only [Bool.and_false, Bool.false_and, Bool.not_false, Bool.and_true, if_true]
        simp only [Bool.false_eq_true, if_false]
        omega
      | true =>
        obtain ⟨o, ho⟩ := Option.isSome_iff_exists.mp (hs child (hl child List.mem_cons_self) he)
        have hk : w.endingOf child.cell = some o.ending := congrArg _ ho
        rw [hk]
        cases o.ending <;> simp <;> omega

/-- Once no task is ready, exactly the children with settled cells have ended. -/
theorem Reached.hasEnded_eq (h : Reached (.caller none) w) (hq : w.ready = []) {i : Nat}
    {child : Child V} (hc : w.children[i]? = some child) :
    child.hasEnded = w.isSettled child.cell := by
  cases he : child.hasEnded with
  | true => exact (h.endedSettled child (List.mem_of_getElem? hc) he).symm
  | false =>
    -- A settled child that has not ended has been signalled, and would not wait.
    refine (Bool.eq_false_iff.mpr fun hs => ?_).symm
    have hcell := List.getElem?_eq_getElem (h.owned.cell_lt hc)
    rw [isSettled_eq, hcell] at hs
    have ht := (h.tended.tends hc hcell).signalled he hs
    obtain ⟨x, hx, hn, -⟩ := h.sleeps hq (live_child.mpr ⟨child, hc, he⟩)
    obtain rfl := Option.some.inj (hc.symm.trans hx)
    rw [isSignalled, hcell] at hn
    exact Bool.noConfusion (ht.symm.trans hn)

end TimedTasks

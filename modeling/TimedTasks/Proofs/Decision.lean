import TimedTasks.Proofs.Verdict
/-!
How a future comes to its outcome. One operation adds little to the history: nothing, one thing, or
one of two pairs. So an operation that settles the future of a task with a value or a failure is the
end of a run of that task, and an end that finds the future unsettled settles it. Once a task is
settled outside a run of its body, the body is never called or let go on again.
-/

namespace TimedTasks

variable {V : Type}

/-- What an operation can add to the history. -/
inductive Addition (t : Instant) : List (Instant × Happening V) → Prop
  | nothing : Addition t []
  | single (h : Happening V) : Addition t [(t, h)]
  | drained (e : Nat) : Addition t [(t, .asked e), (t, .draining e)]
  | aborted (c : Nat) (r : RunEnd V) : Addition t [(t, .ended c r), (t, .cancelled c)]

/-- What is known when something befalls a run of a task: it is the turn of the task. And the first
who asks for a shutdown is in the middle of it. -/
def Happening.Arises (f : Focus) (w : World V) (f' : Focus) : Happening V → Prop
  | .called c => ∃ i child, f = .turn (.child i) ∧ f' = .caller (some i) ∧
      w.children[i]? = some child ∧ child.cell = c ∧ w.mayStart c = true ∧
      w.mayRun child.executor child.work.kind = true ∧ w.dueTime child ≤ w.now
  | .polled c => ∃ i child, f' = .caller (some i) ∧ w.children[i]? = some child ∧ child.cell = c ∧
      (f = .caller (some i) ∨
        f = .turn (.child i) ∧ w.isSignalled c = false ∧ child.hasEnded = false)
  | .ended c _ => ∃ i child, f.task? = some (.child i) ∧ f'.body? = none ∧
      w.children[i]? = some child ∧ child.cell = c
  | .asked e => w.isRunning e = true → f'.leaving? = some e
  | _ => True

open World

variable {f f' f'' : Focus} {w w' w'' : World V}

theorem World.finish_adds {i : Nat} {child : Child V} (r : RunEnd V)
    (hc : w.children[i]? = some child) :
    ∃ l, (w.finish i child r).history = w.history ++ l ∧ Addition w.now l ∧
      ∀ p ∈ l, p.2 = .ended child.cell r ∨ p.2 = .cancelled child.cell := by
  refine ⟨_, finish_history r hc, ?_⟩
  split
  · exact ⟨.aborted child.cell r, by simp⟩
  · exact ⟨.single _, by simp⟩

/-- Nothing else happens when a body is let go on. -/
theorem Addition.eq_of_polled {t : Instant} {l : List (Instant × Happening V)} (h : Addition t l)
    {p : Instant × Happening V} (hp : p ∈ l) {c : Nat} (hc : p.2 = .polled c) :
    l = [(t, .polled c)] := by
  cases h with
  | nothing => cases hp
  | single h =>
    obtain rfl := List.mem_singleton.mp hp
    rw [← hc]
  | drained e | aborted c r =>
    rcases List.mem_cons.mp hp with rfl | hp
    · cases hc
    · obtain rfl := List.mem_singleton.mp hp
      cases hc

theorem Op.adds (op : Op f w f' w') :
    ∃ l, w'.history = w.history ++ l ∧ Addition w.now l ∧ ∀ p ∈ l, p.2.Arises f w f' := by
  have nothing : w'.history = w.history →
      ∃ l, w'.history = w.history ++ l ∧ Addition w.now l ∧ ∀ p ∈ l, p.2.Arises f w f' :=
    fun h => ⟨[], by simp [h], .nothing, by simp⟩
  have one : ∀ {h : Happening V}, w'.history = w.history ++ [(w.now, h)] → h.Arises f w f' →
      ∃ l, w'.history = w.history ++ l ∧ Addition w.now l ∧ ∀ p ∈ l, p.2.Arises f w f' :=
    fun h ha => ⟨_, h, .single _, by simpa using ha⟩
  have ends : ∀ {i : Nat} {child : Child V} {r : RunEnd V} {l : List (Instant × Happening V)},
      w.children[i]? = some child → f.task? = some (.child i) → f'.body? = none →
      (∀ p ∈ l, p.2 = .ended child.cell r ∨ p.2 = .cancelled child.cell) →
      ∀ p ∈ l, p.2.Arises f w f' := by
    intro i child r l hc hf hf' hl p hp
    rcases hl p hp with h | h
    · rw [h]
      exact ⟨i, child, hf, hf', hc, rfl⟩
    · rw [h]
      trivial
  cases op with
  | @cancel _ _ c interrupt hg =>
    exact one (cancel_history_of_granted hg) trivial
  | @drain _ _ e hr =>
    refine ⟨_, List.append_assoc .., .drained e, fun p hp => ?_⟩
    rcases List.mem_cons.mp hp with rfl | hp
    · exact fun _ => rfl
    · rw [List.mem_singleton.mp hp]
      trivial
  | @start _ i child hc he hm hs hr hd =>
    exact one (begin_history w i child) ⟨i, child, rfl, rfl, hc, rfl, hm, hr, hd⟩
  | @poll _ i child hc => exact one rfl ⟨i, child, rfl, hc, rfl, .inl rfl⟩
  | @resume _ i child on rest hc he hs =>
    exact one rfl ⟨i, child, rfl, hc, rfl, .inr ⟨rfl, hs, by rw [Child.hasEnded, he]⟩⟩
  | @again _ i child value hc hk => exact one rfl ⟨i, child, rfl, rfl, hc, rfl⟩
  | pause rest hc he ho hp | sleep hc he hp hs hk =>
    obtain ⟨-, -, -, -, -, -, -, hhistory, -⟩ := parkChild_frame _ hc
    exact nothing hhistory
  | @finish _ i child r hc he hr hk =>
    obtain ⟨l, hl, hadd, hends⟩ :=
      World.finish_adds (w := w.modifyCell child.cell (·.leave r)) r hc
    exact ⟨l, hl, hadd, ends hc rfl rfl hends⟩
  | @stop _ i child hc he hb =>
    obtain ⟨l, hl, hadd, hends⟩ := World.finish_adds .stopped hc
    exact ⟨l, hl, hadd, ends hc rfl rfl hends⟩
  | openBatch name hr hw hn => exact nothing (openBatch_frame w _ name _ _).2.2.2.2
  | grant count => exact nothing (by rw [addCancelledCells_cells])
  | ask he hr => exact one rfl fun h => absurd h (by simp [hr])
  | close | terminate => exact one rfl trivial
  | _ => exact nothing rfl

/-- A body begins to act when it is called or let go on. -/
theorem Op.enters (op : Op f w f' w') {i : Nat} (hf : f'.body? = some i) :
    f.body? = some i ∨ ∃ child, w.children[i]? = some child ∧
      (w'.history = w.history ++ [(w.now, .called child.cell)] ∨
        w'.history = w.history ++ [(w.now, .polled child.cell)] ∧ f' = .caller (some i)) := by
  cases op with
  | @start _ k child hc he hm hs hr hd =>
    obtain rfl := Option.some.inj hf
    exact .inr ⟨child, hc, .inl (begin_history w k child)⟩
  | resume hc he hs =>
    obtain rfl := Option.some.inj hf
    exact .inr ⟨_, hc, .inr ⟨rfl, rfl⟩⟩
  | _ => first | exact .inl hf | cases hf

/-! ## Silent tasks -/

namespace World

/-- Nothing more comes of a task: it is settled, and no body of its own goes on. -/
structure Silent (f : Focus) (w : World V) (c : Nat) : Prop where
  settled : w.isSettled c = true
  still : ∀ i child, f.body? = some i → w.children[i]? = some child → child.cell ≠ c

theorem Silent.of_no_body {f : Focus} {c : Nat} (hs : w.isSettled c = true) (hb : f.body? = none) :
    Silent f w c := ⟨hs, by simp [hb]⟩

/-- A settled task starts no run, and no run of it is let go on. -/
theorem Silent.isRun_eq_false {c : Nat} (h : Silent f w c) (hr : Reached f w) {a : Happening V}
    (ha : a.Arises f w f') : a.isRun c = false := by
  cases a with
  | called k =>
    obtain ⟨i, child, -, -, -, rfl, hm, -⟩ := ha
    refine beq_eq_false_iff_ne.mpr ?_
    rintro rfl
    obtain ⟨cell, hcell, -, hn⟩ := mayStart_iff.mp hm
    have hs := h.settled
    rw [isSettled_eq, hcell] at hs
    simp [hn] at hs
  | polled k =>
    refine beq_eq_false_iff_ne.mpr ?_
    obtain ⟨i, child, -, hc, rfl, rfl | ⟨rfl, hs, he⟩⟩ := ha
    · exact h.still i child rfl hc
    · -- A settled child that has not ended was signalled.
      rintro rfl
      have hcell := List.getElem?_eq_getElem (hr.owned.cell_lt hc)
      have ht := (hr.tended.tends hc hcell).signalled he
      have hsettled := h.settled
      rw [isSettled_eq, hcell] at hsettled
      rw [isSignalled, hcell] at hs
      exact Bool.noConfusion ((ht hsettled).symm.trans hs)
  | _ => rfl

end World

/-- The body of a silent task is neither made nor let go on. -/
theorem Op.silent (op : Op f w f' w') (hr : Reached f w) {c : Nat} (h : Silent f w c) :
    Silent f' w' c ∧ ∃ l, w'.history = w.history ++ l ∧ ∀ p ∈ l, p.2.isRun c = false := by
  obtain ⟨l, hl, -, harises⟩ := op.adds
  have hquiet : ∀ p ∈ l, p.2.isRun c = false := fun p hp => h.isRun_eq_false hr (harises p hp)
  refine ⟨⟨op.later.isSettled h.settled, fun i child' hb hc' => ?_⟩, l, hl, hquiet⟩
  -- Whose body acts now acted before, or this operation has begun a run of it or let it go on.
  obtain ⟨child, hc, hne⟩ : ∃ child, w.children[i]? = some child ∧ child.cell ≠ c := by
    rcases op.enters hb with hb | ⟨child, hc, hrun⟩
    · obtain ⟨child, hc, -⟩ := hr.tended.acting hb
      exact ⟨child, hc, h.still i child hb hc⟩
    · refine ⟨child, hc, fun he => ?_⟩
      rcases hrun with hrun | ⟨hrun, -⟩ <;>
        obtain rfl := List.append_cancel_left (hl.symm.trans hrun) <;>
        simp [Happening.isRun, he] at hquiet
  obtain ⟨x, hx, hlater⟩ := op.later.children i child hc
  obtain rfl := Option.some.inj (hc'.symm.trans hx)
  exact hlater.cell ▸ hne

theorem Ops.silent (ops : Ops f w f' w') (hr : Reached f w) {c : Nat} (h : Silent f w c) :
    ∃ l, w'.history = w.history ++ l ∧ ∀ p ∈ l, p.2.isRun c = false := by
  have hs := ops.induct hr
    (P := fun f' w' => Silent f' w' c ∧ ∃ l, w'.history = w.history ++ l ∧
      ∀ p ∈ l, p.2.isRun c = false)
    ⟨h, [], (List.append_nil _).symm, by simp⟩ ?_
  · exact hs.2
  · intro f' w' f'' w'' hr' op h
    obtain ⟨hs, l, hl, hn⟩ := h
    obtain ⟨hs', l', hl', hn'⟩ := op.silent hr' hs
    refine ⟨hs', l ++ l', by rw [hl', hl, List.append_assoc], fun p hp => ?_⟩
    exact (List.mem_append.mp hp).elim (hn p) (hn' p)

/-! ## What decides an outcome -/

/-- An operation that settles the future of a child, other than as cancelled, is the end of a run
of it. -/
theorem Op.decides (op : Op f w f' w') (hr : Reached f w) {i : Nat} {child : Child V}
    (hc : w.children[i]? = some child) (hn : w.outcomeOf child.cell = none) {o : Outcome V}
    (ho : w'.outcomeOf child.cell = some o) (hne : o ≠ .cancelled) :
    ∃ r l, child.work.verdict? r = some o ∧
      w'.history = w.history ++ (w.now, .ended child.cell r) :: l := by
  obtain ⟨l, hl, hadd, -⟩ := op.adds
  obtain ⟨child', hc', hlater⟩ := op.later.children i child hc
  -- What the history tells after the operation and did not tell before stands in what was added.
  have hv : l.findSome? (fun p => p.2.verdict? child.cell child.work) = some o := by
    have hbefore := hr.judged.outcome child (List.mem_of_getElem? hc)
    have hafter := (hr.op op).judged.outcome child' (List.mem_of_getElem? hc')
    rw [hn] at hbefore
    rw [hlater.cell, hlater.work, ho, hl, List.findSome?_append, ← hbefore,
      Option.none_or] at hafter
    exact hafter.symm
  have hend : ∀ {h : Happening V}, h.verdict? child.cell child.work = some o →
      ∃ r, h = .ended child.cell r ∧ child.work.verdict? r = some o := by
    intro h hh
    cases h with
    | ended k r =>
      by_cases hk : k = child.cell
      · subst hk
        exact ⟨r, rfl, by simpa [Happening.verdict?] using hh⟩
      · simp [Happening.verdict?, hk] at hh
    | cancelled k =>
      by_cases hk : k = child.cell
      · simp only [Happening.verdict?, hk, if_true, Option.some.injEq] at hh
        exact absurd hh.symm hne
      · simp [Happening.verdict?, hk] at hh
    | _ => simp [Happening.verdict?] at hh
  cases hadd with
  | nothing => simp at hv
  | single h =>
    rw [List.findSome?_singleton] at hv
    obtain ⟨r, rfl, hr⟩ := hend hv
    exact ⟨r, [], hr, hl⟩
  | drained e => simp [Happening.verdict?] at hv
  | aborted c r =>
    rw [List.findSome?_cons] at hv
    split at hv
    · rename_i o' ho'
      obtain rfl := Option.some.inj hv
      obtain ⟨r', he, hr'⟩ := hend ho'
      obtain ⟨rfl, rfl⟩ := Happening.ended.inj he
      exact ⟨r, _, hr', hl⟩
    · rw [List.findSome?_singleton] at hv
      obtain ⟨r', he, -⟩ := hend hv
      cases he

/-- On the way between two states of a run, a run of a task ended in this way while the future of
the task was unsettled. -/
def EndsOpen (f : Focus) (w : World V) (f' : Focus) (w' : World V) (c : Nat) (r : RunEnd V) :
    Prop :=
  ∃ (f₁ : Focus) (w₁ : World V) (f₂ : Focus) (w₂ : World V) (l : List (Instant × Happening V)),
    Ops f w f₁ w₁ ∧ Op f₁ w₁ f₂ w₂ ∧ Ops f₂ w₂ f' w' ∧ w₁.isSettled c = false ∧
    w₂.history = w₁.history ++ (w₁.now, .ended c r) :: l

theorem EndsOpen.op {c : Nat} {r : RunEnd V} (h : EndsOpen f w f' w' c r) (op : Op f' w' f'' w'') :
    EndsOpen f w f'' w'' c r := by
  obtain ⟨f₁, w₁, f₂, w₂, l, before, at', after, hs, hl⟩ := h
  exact ⟨f₁, w₁, f₂, w₂, l, before, at', after.trans op.ops, hs, hl⟩

theorem World.isSettled_eq_false_iff {c : Nat} : w.isSettled c = false ↔ w.outcomeOf c = none := by
  rw [isSettled, Option.isSome_eq_false_iff, Option.isNone_iff_eq_none]

/-- The future of a task that was unsettled has a value or a failure exactly if a run of the task
ended so, that the task is done with it, while its future was unsettled. -/
theorem Ops.decided (ops : Ops f w f' w') (hr : Reached f w) {i : Nat} {child : Child V}
    (hc : w.children[i]? = some child) (hn : w.outcomeOf child.cell = none) {o : Outcome V}
    (hne : o ≠ .cancelled) :
    w'.outcomeOf child.cell = some o ↔
      ∃ r, child.work.verdict? r = some o ∧ EndsOpen f w f' w' child.cell r := by
  constructor
  · -- The outcome is there from the operation that settled the future on.
    intro ho
    refine (ops.induct hr (P := fun f' w' => Ops f w f' w' ∧ (w'.outcomeOf child.cell = some o →
      ∃ r, child.work.verdict? r = some o ∧ EndsOpen f w f' w' child.cell r))
      ⟨.refl, fun ho => by simp [hn] at ho⟩ ?_).2 ho
    rintro f₁ w₁ f₂ w₂ hr₁ op ⟨before, ih⟩
    refine ⟨before.trans op.ops, fun ho => ?_⟩
    obtain ⟨child₁, hc₁, hlater⟩ := before.later.children i child hc
    cases hs : w₁.outcomeOf child.cell with
    | some o₁ =>
      obtain rfl := Option.some.inj ((op.later.outcomeOf hs).symm.trans ho)
      obtain ⟨r, hv, hend⟩ := ih hs
      exact ⟨r, hv, hend.op op⟩
    | none =>
      rw [← hlater.cell] at hs ho ⊢
      obtain ⟨r, l, hv, hl⟩ := op.decides hr₁ hc₁ hs ho hne
      rw [hlater.work] at hv
      exact ⟨r, hv, f₁, w₁, f₂, w₂, l, before, op, .refl, isSettled_eq_false_iff.mpr hs, hl⟩
  · rintro ⟨r, hv, f₁, w₁, f₂, w₂, l, before, op, after, hs, hl⟩
    obtain ⟨child₁, hc₁, h₁⟩ := before.later.children i child hc
    obtain ⟨child₂, hc₂, h₂⟩ := op.later.children i child₁ hc₁
    have hr₁ := hr.ops before
    have hbefore := hr₁.judged.outcome child₁ (List.mem_of_getElem? hc₁)
    have hafter := (hr₁.op op).judged.outcome child₂ (List.mem_of_getElem? hc₂)
    rw [h₁.cell, h₁.work, isSettled_eq_false_iff.mp hs] at hbefore
    rw [h₂.cell, h₂.work, h₁.cell, h₁.work, hl, List.findSome?_append, ← hbefore, Option.none_or,
      List.findSome?_cons, Happening.verdict?, if_pos rfl, hv] at hafter
    exact after.later.outcomeOf hafter

end TimedTasks

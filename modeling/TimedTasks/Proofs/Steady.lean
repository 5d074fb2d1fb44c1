import TimedTasks.Proofs.Batches
import TimedTasks.Proofs.Moves
/-!
Where the children are while others act. An operation leaves alone every child but the one whose
turn it is. So in a run a child that waits is where its last turn left it: a body that is suspended
is in a run, and a periodic task waits for its due time, as long as it may run then, or has none.
-/

namespace TimedTasks

open World

variable {V : Type} {f f' : Focus} {w w' : World V} {i : Nat} {child : Child V}

/-! ## What an operation leaves alone -/

/-- A child whose turn it is not was there before as it is now, or has just come in. -/
theorem Op.kept_or_new (op : Op f w f' w') (hf : f.task? ≠ some (.child i))
    (hc : w'.children[i]? = some child) :
    w.children[i]? = some child ∨ w.children[i]? = none ∧ child.stage = .created := by
  have same : w'.children = w.children →
      w.children[i]? = some child ∨ w.children[i]? = none ∧ child.stage = .created :=
    fun h => .inl (h ▸ hc)
  have changed : ∀ {k : Nat} {g : Child V → Child V}, f.task? = some (.child k) →
      w'.children = w.children.modify k g →
      w.children[i]? = some child ∨ w.children[i]? = none ∧ child.stage = .created := by
    intro k g hk h
    rw [h, List.getElem?_modify_ne _ _ (by rintro rfl; exact hf hk)] at hc
    exact .inl hc
  cases op with
  | enrol name mark hr hb =>
    rcases getElem?_concat_iff.mp hc with hc | ⟨rfl, rfl⟩
    · exact .inl hc
    · exact .inr ⟨List.getElem?_eq_none (Nat.le_refl _), rfl⟩
  | @openBatch _ _ e work bodies name hr hw hn =>
    obtain ⟨new, hnew, hcreated⟩ := openBatch_children w e name work bodies
    rw [hnew, List.getElem?_append] at hc
    split at hc
    · exact .inl hc
    · rename_i hi
      exact .inr ⟨List.getElem?_eq_none (Nat.le_of_not_lt hi),
        hcreated child (List.mem_of_getElem? hc)⟩
  | cancel hg => exact same (cancel_frame ..).2.2.1
  | @start _ k child hy hn hm hs hr hd => exact changed rfl (countRun_children w k child)
  | pause rest hy hn ho hp | sleep hy hn hp hs hk =>
    exact changed rfl (parkChild_frame _ hy).2.2.2.1
  | yield hy hn hp hk => exact changed rfl rfl
  | @finish _ k child r hy hn hr hk =>
    exact changed rfl (finish_frame (w := w.modifyCell child.cell (·.leave r)) r hy).2.1
  | stop hy hn hb => exact changed rfl (finish_frame _ hy).2.1
  | grant count => exact same (by rw [addCancelledCells_cells])
  | _ => exact same rfl

/-- A child whose turn it is not stays as it is. -/
theorem Op.keeps (op : Op f w f' w') (hf : f.task? ≠ some (.child i))
    (hc : w.children[i]? = some child) : w'.children[i]? = some child := by
  obtain ⟨x, hx, -⟩ := op.later.children i child hc
  rcases op.kept_or_new hf hx with hkept | ⟨hnone, -⟩
  · exact (hc.symm.trans hkept) ▸ hx
  · rw [hc] at hnone
    cases hnone

theorem World.markOf?_modify {c k : Nat} {g : Cell V → Cell V} (h : w'.cells = w.cells.modify c g)
    (hg : ∀ cell, (g cell).mark = cell.mark) : w'.markOf? k = w.markOf? k := by
  rw [markOf?, markOf?, h, List.getElem?_modify]
  cases w.cells[k]? with
  | none => rfl
  | some cell => by_cases hk : c = k <;> simp [hk, hg]

theorem Cell.cancelBy_mark (cell : Cell V) (interrupt : Bool) :
    (cell.cancelBy interrupt).mark = cell.mark := by
  unfold cancelBy
  split <;> rfl

theorem World.openBatch_cells (w : World V) (e : Nat) (name : String)
    (work : Nat → Body V → Work V) (bodies : List (Body V)) :
    w.cells <+: (w.openBatch e name work bodies).cells :=
  addBatchChildren_induct (P := fun w' => w.cells <+: w'.cells) (List.prefix_refl _) e name
    (work w.batches.length) 0 bodies fun _ _ _ h => h.trans (List.prefix_append ..)

/-- A due time is set in the turn of its task only, which goes on then. -/
theorem Op.markOf?_eq (op : Op f w f' w') (ho : Owned w)
    (hf : f = .turn (.child i) → f' ≠ .turn (.child i)) (hc : w.children[i]? = some child) :
    w'.markOf? child.cell = w.markOf? child.cell := by
  have same : w'.cells = w.cells → w'.markOf? child.cell = w.markOf? child.cell := by
    intro h
    rw [markOf?, markOf?, h]
  have grown : w.cells <+: w'.cells → w'.markOf? child.cell = w.markOf? child.cell := by
    rintro ⟨l, h⟩
    rw [markOf?, markOf?, ← h, List.getElem?_append_left (ho.cell_lt hc)]
  cases op with
  | enrol name mark hr hb => exact grown (List.prefix_append ..)
  | cancel hg => exact markOf?_modify (cancel_cells ..) fun cell => cell.cancelBy_mark _
  | @start _ k other hy hn hm hs hr hd =>
    have hcells : (((w.countRun k other).beginRun other.cell).record (.called other.cell)).cells =
        w.cells.modify other.cell fun cell => { cell with phase := .running } :=
      congrArg (List.modify · _ _) (countRun_cells w k other)
    exact markOf?_modify hcells fun _ => rfl
  | @drop _ k other on rest hy he hs => exact markOf?_modify (c := other.cell) rfl fun _ => rfl
  | pause rest hy hn ho hp | sleep hy hn hp hs hk => exact same (parkChild_frame _ hy).2.2.1
  | @again _ k other value hy hk => exact markOf?_modify (c := other.cell) rfl fun _ => rfl
  | @remark _ k other next hy hk =>
    have hne : other.cell ≠ child.cell := by
      intro he
      obtain rfl := ho.apart hy hc he
      exact hf rfl rfl
    show Option.bind (w.cells.modify other.cell _)[child.cell]? _ = _
    rw [List.getElem?_modify_ne _ _ hne]
    rfl
  | @finish _ k other r hy hn hr hk =>
    have hcells := finish_cells (w := w.modifyCell other.cell (·.leave r)) r hy
    simp only [modifyCell, List.modify_modify_eq] at hcells
    refine markOf?_modify hcells fun cell => ?_
    cases r <;> exact Cell.cancelBy_mark _ _
  | @stop _ k other hy hn hb =>
    exact markOf?_modify (finish_cells _ hy) fun cell => Cell.cancelBy_mark _ _
  | openBatch name hr hw hn => exact grown (openBatch_cells ..)
  | grant count => exact grown (by rw [addCancelledCells_cells]; exact List.prefix_append ..)
  | _ => exact same rfl

/-- Runs of a task start and end in its own turn only. -/
theorem Op.underWay_eq (op : Op f w f' w') (ho : Owned w) (hf : f.task? ≠ some (.child i))
    (hc : w.children[i]? = some child) : w'.underWay child.cell = w.underWay child.cell := by
  obtain ⟨l, hl, -, harises⟩ := op.adds
  refine underWay_keep hl fun p hp => ?_
  have hp := harises p hp
  have own : ∀ {k : Nat} {other : Child V}, f.task? = some (.child k) →
      w.children[k]? = some other → other.cell ≠ child.cell := by
    intro k other hk hy he
    obtain rfl := ho.apart hy hc he
    exact hf hk
  cases hh : p.2 with
  | called c =>
    rw [hh] at hp
    obtain ⟨k, other, rfl, -, hy, rfl, -⟩ := hp
    exact if_neg (own rfl hy)
  | ended c r =>
    rw [hh] at hp
    obtain ⟨k, other, hk, -, hy, rfl⟩ := hp
    exact if_neg (own hk hy)
  | _ => rfl

/-- When the turn of a task is over nobody acts. -/
theorem Op.leaves (op : Op f w f' w') {r : TaskRef} (hf : f.task? = some r) :
    f'.task? = some r ∨ f' = .caller none := by
  cases op with
  | take hr => cases hf
  | _ => first | exact .inl hf | exact .inr rfl

theorem World.mayRun_iff {e : Nat} {kind : ChildKind} : w.mayRun e kind = true ↔
    ∃ x, w.executors[e]? = some x ∧
      (x.state = .running ∨ stopsAtShutdown x.settings kind = false) := by
  unfold mayRun
  cases w.executors[e]? <;> simp

/-- What an executor may run, it may run until it is shut down. -/
theorem Op.mayRun (op : Op f w f' w') (hr : Reached f w) {e : Nat} {kind : ChildKind}
    (hm : w.mayRun e kind = true) : w'.mayRun e kind = true ∨ f'.leaving? = some e := by
  obtain ⟨x, hx, hm⟩ := mayRun_iff.mp hm
  obtain ⟨x', hx', hl⟩ := op.later.executors e x hx
  by_cases hs : x'.state = .running
  · exact .inl (mayRun_iff.mpr ⟨x', hx', .inl hs⟩)
  rcases hm with hrun | hk
  · -- The history has no request for a shutdown yet, so this operation adds one.
    obtain ⟨l, hh, -, harises⟩ := op.adds
    have hbefore := (hr.chronicled e).asked
    have hafter := ((hr.op op).chronicled e).asked
    rw [rank_of_getElem? hx, hrun] at hbefore
    rw [rank_of_getElem? hx', hh, List.any_append, hbefore] at hafter
    have hrank : 0 < x'.state.rank := by
      cases hst : x'.state with
      | running => exact absurd hst hs
      | _ => simp [Lifecycle.rank]
    have hany : l.any (·.2.isAsked e) = true := by
      rw [decide_eq_true hrank] at hafter
      exact hafter
    obtain ⟨p, hp, hasked⟩ := List.any_eq_true.mp hany
    have hp := harises p hp
    cases hh : p.2 with
    | asked k =>
      rw [hh] at hp hasked
      obtain rfl : k = e := by simpa [Happening.isAsked] using hasked
      exact .inr (hp (isRunning_iff.mpr ⟨x, hx, hrun⟩))
    | _ => simp [hh, Happening.isAsked] at hasked
  · exact .inl (mayRun_iff.mpr ⟨x', hx', .inr (hl.settings ▸ hk)⟩)

/-- What an executor may run no more, it may never run again. -/
theorem World.Later.mayRun_eq_false (hl : Later w w') {e : Nat} (he : e < w.executors.length)
    {kind : ChildKind} (hm : w.mayRun e kind = false) : w'.mayRun e kind = false := by
  refine Bool.eq_false_iff.mpr fun hm' => Bool.eq_false_iff.mp hm ?_
  obtain ⟨x', hx', hm'⟩ := mayRun_iff.mp hm'
  have hx := List.getElem?_eq_getElem he
  obtain ⟨y, hy, hk⟩ := hl.executors e _ hx
  obtain rfl := Option.some.inj (hx'.symm.trans hy)
  refine mayRun_iff.mpr ⟨_, hx, hm'.imp (fun hs => ?_) fun hk' => hk.settings ▸ hk'⟩
  have hrank := hk.rank
  rw [hs] at hrank
  cases hst : w.executors[e].state with
  | running => rfl
  | _ => simp [hst, Lifecycle.rank] at hrank

/-! ## Where a child is -/

theorem Pace.next?_eq_none {pace : Pace} {due due' t : Instant} (hdue : due ≤ due')
    (h : pace.next? due t = none) : pace.next? due' t = none := by
  cases pace with
  | fixedRate period =>
    rw [next?, Option.map_eq_none_iff] at h ⊢
    have hlimit : ¬ due + period.nanos < Instant.limit := by simpa [Instant.after?] using h
    exact if_neg fun hlt => hlimit (Nat.lt_of_le_of_lt (Nat.add_le_add_right hdue _) hlt)
  | fixedDelay delay => exact h

theorem World.Later.now_le (hl : Later w w') : w.now ≤ w'.now := hl.clock

theorem World.Timely.keep (h : w.Timely child)
    (hway : w'.underWay child.cell = w.underWay child.cell)
    (hmark : w'.markOf? child.cell = w.markOf? child.cell) (hnow : w.now ≤ w'.now)
    (hhistory : w.history <+: w'.history) : w'.Timely child := by
  -- A due time that is not set counts as now.
  have hdue : ∀ {pace : Pace} {runs : List (Body V)}, child.work = .periodic pace runs →
      w.dueTime child = w'.dueTime child ∨ w.dueTime child = w.now ∧ w'.dueTime child = w'.now := by
    intro pace runs hw
    unfold dueTime
    rw [hw, hmark]
    cases w.markOf? child.cell with
    | none => exact .inr ⟨rfl, rfl⟩
    | some m => exact .inl rfl
  unfold Timely at h ⊢
  split
  · rename_i hs
    rw [hs] at h
    rw [hway]
    exact h
  · rename_i due pace runs hs hw
    rw [hs, hw] at h
    intro hlt
    have hlt := Nat.lt_of_le_of_lt hnow hlt
    rcases hdue hw with hd | ⟨hd, -⟩
    · exact hd.symm.trans (h hlt)
    · exact absurd (hd.symm.trans (h hlt)) (Nat.ne_of_lt hlt)
  · rename_i pace runs hs hw
    rw [hs, hw] at h
    obtain ⟨t, value, hm, hnext⟩ := h
    refine ⟨t, value, hhistory.subset hm, Pace.next?_eq_none ?_ hnext⟩
    rcases hdue hw with hd | ⟨hd, hd'⟩
    · exact Nat.le_of_eq hd
    · rw [hd, hd']
      exact hnow
  · trivial

/-- Where the children are whose turn it is not. -/
structure Steady (f : Focus) (w : World V) : Prop where
  acting : ∀ {i child}, f.body? = some i → w.children[i]? = some child →
    w.underWay child.cell = true
  timely : ∀ {i child}, w.children[i]? = some child → f.task? ≠ some (.child i) → w.Timely child
  spared : ∀ {i child}, w.children[i]? = some child → f.task? ≠ some (.child i) →
    f.leaving? ≠ some child.executor → w.outcomeOf child.cell = none → w.Spared child

/-- A request to cancel an unsettled task is refused only if it may not interrupt its run. -/
theorem Reached.running_of_refused (hr : Reached f w) (hc : w.children[i]? = some child)
    (hn : w.outcomeOf child.cell = none) (hrefused : w.cancellable child.cell false = false) :
    w.phaseOf? child.cell = some .running := by
  obtain ⟨cell, hcell⟩ : ∃ cell, w.cells[child.cell]? = some cell :=
    ⟨_, List.getElem?_eq_getElem (hr.owned.cell_lt hc)⟩
  have ho : cell.outcome = none := by simpa [outcomeOf, hcell] using hn
  have hphase : cell.phase ≠ .idle := by simpa [cancellable, hcell, ho] using hrefused
  rw [phaseOf?, hcell]
  cases hp : cell.phase with
  | idle => exact absurd hp hphase
  | running => simp [hp]
  | closed =>
    have := (hr.tended.sane hcell).closed hp
    simp [ho] at this

/-- A run of a child whose body does not act is under way only while the body is suspended. -/
theorem Reached.suspended_of_running (hr : Reached f w) (hc : w.children[i]? = some child)
    (he : child.hasEnded = false) (hb : f.body? ≠ some i)
    (hp : w.phaseOf? child.cell = some .running) :
    ∃ on rest, child.stage = .suspended on rest := by
  obtain ⟨cell, hcell, hp⟩ := Option.map_eq_some_iff.mp hp
  exact ((hr.tended.tends hc hcell).running he hp).resolve_right hb

/-- A task that its executor may run no more, and that does not act, is not about to run again. -/
theorem World.Purged.spared {b : Option Nat} {e : Nat} (h : w.Purged e)
    (hr : Reached (.shutting b e) w) (hc : w.children[i]? = some child)
    (hb : b ≠ some i) (he : child.executor = e) (hn : w.outcomeOf child.cell = none) :
    w.Spared child := by
  intro due hs hk hlt
  cases hm : w.mayRun child.executor .periodic with
  | true => rfl
  | false =>
    exfalso
    rw [← hk, he] at hm
    have hphase := hr.running_of_refused hc hn (h child (List.mem_of_getElem? hc) he hm)
    obtain ⟨on, rest, hst⟩ := hr.suspended_of_running hc (by simp [Child.hasEnded, hs]) hb hphase
    simp [hs] at hst

/-- The shutdown of an executor is over when its caller goes on. -/
theorem Op.departs (op : Op f w f' w') {e : Nat} (hf : f.leaving? = some e) :
    f' = f ∨ ∃ b, f = .shutting b e ∧ f' = .caller b := by
  cases op with
  | close hx h0 | watch hx h0 =>
    obtain rfl := Option.some.inj hf
    exact .inr ⟨_, rfl, rfl⟩
  | _ => first | exact .inl rfl | cases hf

/-- A child whose turn ends is where it should be, and every other one is where it was, unless it
has just come in. -/
theorem Move.stays (m : Move f w f' w') (hc : w'.children[i]? = some child)
    (hf' : f'.task? ≠ some (.child i)) :
    (w'.Timely child ∧ w'.Spared child) ∨ child.stage = .created ∨
      f.task? ≠ some (.child i) ∧ w.children[i]? = some child := by
  by_cases hf : f.task? = some (.child i)
  · exact .inl (m.heeds.timely i child hf ((m.op.leaves hf).resolve_left hf') hc)
  · exact .inr ((m.op.kept_or_new hf hc).symm.imp And.right fun hc => ⟨hf, hc⟩)

/-- A run of a task is under way while its body acts. -/
theorem Move.acting (m : Move f w f' w') (hr : Reached f w) (h : Steady f w)
    (hb : f'.body? = some i) (hc' : w'.children[i]? = some child) :
    w'.underWay child.cell = true := by
  have same : ∀ {x : Child V}, w.children[i]? = some x → child.cell = x.cell := by
    intro x hx
    obtain ⟨y, hy, hl⟩ := m.op.later.children i x hx
    obtain rfl := Option.some.inj (hc'.symm.trans hy)
    exact hl.cell
  rcases m.op.enters hb with hf | ⟨x, hx, hcalled | ⟨hpolled, hf'⟩⟩
  · -- A run that is under way does not end while its body acts.
    obtain ⟨x, hx, -⟩ := hr.tended.acting hf
    obtain ⟨l, hl, -, harises⟩ := m.op.adds
    rw [same hx, underWay_keep hl fun p hp => ?_]
    · exact h.acting hf hx
    have hp := harises p hp
    cases hh : p.2 with
    | called c =>
      rw [hh] at hp
      obtain ⟨k, other, rfl, -⟩ := hp
      cases hf
    | ended c r =>
      rw [hh] at hp
      obtain ⟨k, other, -, hnone, -⟩ := hp
      rw [hnone] at hb
      cases hb
    | _ => rfl
  · rw [same hx, underWay_single hcalled]
    simp [Happening.opens?]
  · rw [same hx, underWay_single hpolled]
    exact (m.heeds.polls i x.cell hf' hpolled).1

/-- A child that its executor may run goes on to wait for that, unless the executor is being shut
down. -/
theorem Move.spared (m : Move f w f' w') (hr : Reached f w) (h : Steady f w)
    (hc : w.children[i]? = some child) (hf : f.task? ≠ some (.child i))
    (hleaving : f'.leaving? ≠ some child.executor) (hn : w'.outcomeOf child.cell = none) :
    w'.Spared child := by
  have hn : w.outcomeOf child.cell = none := by
    cases ho : w.outcomeOf child.cell with
    | none => rfl
    | some o => exact (m.op.later.outcomeOf ho).symm.trans hn
  have hspared : w.Spared child := by
    by_cases hl : f.leaving? = some child.executor
    · obtain rfl | ⟨b, rfl, rfl⟩ := m.op.departs hl
      · exact absurd hl hleaving
      · refine (m.heeds.purged b _ rfl rfl).spared hr hc ?_ rfl hn
        rintro rfl
        exact hf rfl
    · exact h.spared hc hf hl hn
  intro due hs hk hlt
  have hmay := hspared due hs hk (Nat.lt_of_le_of_lt m.op.later.now_le hlt)
  exact (m.op.mayRun hr hmay).resolve_right hleaving

theorem Move.steady (m : Move f w f' w') (hr : Reached f w) (h : Steady f w) : Steady f' w' where
  acting hb hc := m.acting hr h hb hc
  timely {i child} hc hf' := by
    rcases m.stays hc hf' with hends | hnew | ⟨hf, hc⟩
    · exact hends.1
    · simp [Timely, hnew]
    · exact (h.timely hc hf).keep (m.op.underWay_eq hr.owned hf hc)
        (m.op.markOf?_eq hr.owned (fun h => absurd (congrArg Focus.task? h) hf) hc)
        m.op.later.now_le m.op.later.history
  spared {i child} hc hf' hleaving hn := by
    rcases m.stays hc hf' with hends | hnew | ⟨hf, hc⟩
    · exact hends.2
    · intro due hs
      simp [hnew] at hs
    · exact m.spared hr h hc hf hleaving hn

theorem Walked.steady (h : Walked f w) : Steady f w := by
  refine h.induct (P := Steady) (fun jumps => ?_) fun hr m h => m.steady hr h
  constructor <;> simp [World.start]

/-! ## A child that is let wait -/

/-- Where a child should be in a stage does not depend on how far it has come otherwise. -/
theorem World.Timely.of_later {cur : Child V} (hl : Child.Later child cur) {s : Stage V}
    (h : w.Timely { child with stage := s } ∧ w.Spared { child with stage := s }) :
    w.Timely { cur with stage := s } ∧ w.Spared { cur with stage := s } := by
  obtain ⟨he, -, hc, -, hw, -⟩ := hl
  cases child
  cases cur
  dsimp only at he hc hw
  subst he hc hw
  exact h

theorem World.timely_of_due {due : Instant} (hd : due ≤ w.now) :
    w.Timely { child with stage := .scheduled due } ∧
      w.Spared { child with stage := .scheduled due } := by
  constructor
  · unfold Timely
    cases child.work with
    | periodic pace runs => exact fun hlt => absurd hd (Nat.not_le.mpr hlt)
    | _ => trivial
  · intro t ht _ hlt
    obtain rfl := Stage.scheduled.inj ht
    exact absurd hd (Nat.not_le.mpr hlt)

theorem Heeds.parks (hf : f.task? = some (.child i)) (hl : f.leaving? = none)
    (hc : w.children[i]? = some child) {s : Stage V}
    (h : w.Timely { child with stage := s } ∧ w.Spared { child with stage := s }) :
    Heeds f w (.caller none) (w.parkChild i s) := by
  obtain ⟨hclock, hexecutors, hcells, hchildren, -, -, -, hhistory, -⟩ := parkChild_frame s hc
  have hnow : (w.parkChild i s).now = w.now := congrArg (·.elapsed.nanos) hclock
  refine .ends hf hl fun child' hc' => ?_
  rw [hchildren, List.getElem?_modify_eq, hc] at hc'
  obtain rfl := Option.some.inj hc'
  refine ⟨h.1.keep (underWay_congr hhistory) ?_ (Nat.le_of_eq hnow.symm)
    (hhistory ▸ List.prefix_refl _), fun due hs hk hlt => ?_⟩
  · rw [markOf?, markOf?, hcells]
  · rw [World.mayRun, hexecutors]
    exact h.2 due hs hk (hnow ▸ hlt)

end TimedTasks

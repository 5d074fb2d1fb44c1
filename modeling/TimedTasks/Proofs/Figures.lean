import TimedTasks.Proofs.Passage
/-!
The figures that an executor shows. They add up, in every state of a run; each child that ends is
counted under the ending that its future keeps; and once no task is ready the figures can be read
off the futures.
-/

namespace TimedTasks

open World

variable {V : Type} {f f' : Focus} {w w' : World V} {e : Nat} {x : Executor}

namespace World

/-- How many children of an executor have a future that is settled in some way. -/
def settledAs (w : World V) (e : Nat) (k : Ending) : Nat :=
  w.children.countP fun child => child.executor == e && w.endingOf child.cell == some k

/-- How many children of an executor have a future that is not settled. -/
def unsettled (w : World V) (e : Nat) : Nat :=
  w.children.countP fun child => child.executor == e && !w.isSettled child.cell

theorem statsOf_eq (hx : w.executors[e]? = some x) : w.statsOf e = x.counters.snapshot := by
  rw [statsOf, hx]

end World

/-- An operation that ends a child finishes it, and changes no executor otherwise. -/
theorem Op.ends (op : Op f w f' w') {i : Nat} {child child' : Child V}
    (hc : w.children[i]? = some child) (he : child.hasEnded = false)
    (hc' : w'.children[i]? = some child') (he' : child'.hasEnded = true) :
    ∃ (w₁ : World V) (r : RunEnd V), w₁.executors = w.executors ∧ w₁.children = w.children ∧
      w' = w₁.finish i child r := by
  -- No other operation leaves a child ended that had not ended.
  have same : ∀ {y : Child V}, w.children[i]? = some y → y.hasEnded = true → False := by
    intro y hy hye
    obtain rfl := Option.some.inj (hc.symm.trans hy)
    exact Bool.noConfusion (he.symm.trans hye)
  have changed : ∀ {k : Nat} {g : Child V → Child V},
      (∀ y, w.children[i]? = some y → (g y).hasEnded = false) →
      (w.children.modify k g)[i]? = some child' → False := by
    intro k g hg hy
    obtain ⟨z, hz, ⟨-, rfl⟩ | ⟨-, rfl⟩⟩ := exists_getElem?_of_modify hy
    · exact Bool.noConfusion ((hg z hz).symm.trans he')
    · exact same hz he'
  have finishes : ∀ {w₁ : World V} {k : Nat} {y : Child V} (r : RunEnd V),
      w₁.executors = w.executors → w₁.children = w.children → w₁.children[k]? = some y →
      (w₁.finish k y r).children[i]? = some child' → ∃ (w₁' : World V) (r' : RunEnd V),
        w₁'.executors = w.executors ∧ w₁'.children = w.children ∧
          w₁.finish k y r = w₁'.finish i child r' := by
    intro w₁ k y r hex hch hy hi
    rw [(finish_frame r hy).2.1, hch] at hi
    obtain ⟨z, hz, ⟨rfl, -⟩ | ⟨-, rfl⟩⟩ := exists_getElem?_of_modify hi
    · rw [hch, hc] at hy
      obtain rfl := Option.some.inj hy
      exact ⟨_, r, hex, hch, rfl⟩
    · exact (same hz he').elim
  cases op with
  | finish hy hn hr hk => exact finishes _ rfl rfl hy hc'
  | stop hy hn hb => exact finishes _ rfl rfl hy hc'
  | enrol name mark hr hb =>
    rcases getElem?_concat_iff.mp hc' with hc' | ⟨-, rfl⟩
    · exact (same hc' he').elim
    · cases he'
  | cancel hg =>
    rw [(cancel_frame w _ _).2.2.1] at hc'
    exact (same hc' he').elim
  | start hy hn hm hs hr hd =>
    refine (changed (fun z hz => ?_) ((countRun_children w _ _).symm ▸ hc')).elim
    obtain rfl := Option.some.inj (hc.symm.trans hz)
    exact he
  | pause rest hy hn ho hp =>
    exact (changed (fun _ _ => rfl) ((parkChild_frame _ hy).2.2.2.1 ▸ hc')).elim
  | sleep hy hn hp hs hk =>
    refine (changed (fun _ _ => ?_) ((parkChild_frame _ hy).2.2.2.1 ▸ hc')).elim
    exact Child.hasEnded_of_sleep hs _
  | yield hy hn hp hk => exact (changed (fun _ _ => rfl) hc').elim
  | openBatch name hr hw hn =>
    obtain ⟨l, hl, hnew⟩ := openBatch_children w _ name _ _
    rw [hl, List.getElem?_append] at hc'
    split at hc'
    · exact (same hc' he').elim
    · rw [Child.hasEnded, hnew child' (List.mem_of_getElem? hc')] at he'
      cases he'
  | grant count =>
    rw [addCancelledCells_cells] at hc'
    exact (same hc' he').elim
  | _ => exact (same hc' he').elim

/-- A child that ends is counted once, under the ending that its future has from then on. -/
theorem Op.counts (hr : Reached f w) (op : Op f w f' w') {i : Nat} {child child' : Child V}
    (hx : w.executors[e]? = some x) (hc : w.children[i]? = some child) (hce : child.executor = e)
    (he : child.hasEnded = false) (hc' : w'.children[i]? = some child')
    (he' : child'.hasEnded = true) :
    ∃ (o : Outcome V) (x' : Executor), w'.outcomeOf child.cell = some o ∧
      w'.executors[e]? = some x' ∧ x'.counters = countEnding x.counters (some o.ending) := by
  obtain ⟨w₁, r, hex, hch, rfl⟩ := op.ends hc he hc' he'
  rw [← hch] at hc
  have hsettled := (hr.op op).endedSettled child' (List.mem_of_getElem? hc') he'
  have hcell : child'.cell = child.cell := by
    obtain ⟨y, hy, hl⟩ := op.later.children i child (hch ▸ hc)
    obtain rfl := Option.some.inj (hc'.symm.trans hy)
    exact hl.cell
  rw [hcell] at hsettled
  obtain ⟨o, ho⟩ := Option.isSome_iff_exists.mp hsettled
  have hk : (w₁.finish i child r).endingOf child.cell = some o.ending := congrArg _ ho
  refine ⟨o, x.discharge i (some o.ending), ho, ?_, rfl⟩
  rw [finish_executors r hc, hex, hce, List.getElem?_modify_eq, hx, hk]
  rfl

theorem Reached.submitted_eq (hr : Reached f w) (hx : w.executors[e]? = some x) :
    x.counters.submitted =
      x.counters.completed + x.counters.failed + x.counters.cancelled + w.unended e := by
  have hb := hr.audited e x hx
  have hc := hb.ended .completed
  have hf := hb.ended .failed
  have hk := hb.ended .cancelled
  rw [hb.submitted, World.admitted_eq hr.endedSettled e, ← hc, ← hf, ← hk]
  rfl

/-- What is counted as active are the children that have not ended. -/
theorem Reached.active_eq (hr : Reached f w) (hx : w.executors[e]? = some x) :
    (w.statsOf e).active = w.unended e := by
  have hs := hr.submitted_eq hx
  rw [statsOf_eq hx]
  show x.counters.submitted - (x.counters.completed + x.counters.failed + x.counters.cancelled) = _
  omega

/-- Once no task is ready, the children that have ended are those with settled futures. -/
theorem Reached.quiet_eq (hr : Reached (.caller none) w) (hq : w.ready = []) (e : Nat) :
    (∀ k, w.endedAs e k = w.settledAs e k) ∧ w.unended e = w.unsettled e := by
  refine ⟨fun k => List.countP_congr fun child hc => ?_, List.countP_congr fun child hc => ?_⟩
  all_goals
    obtain ⟨i, hi⟩ := List.mem_iff_getElem?.mp hc
    rw [hr.hasEnded_eq hq hi]
  cases ho : w.outcomeOf child.cell with
  | none => simp [World.endingOf, ho]
  | some o => simp [World.endingOf, World.isSettled, ho]

/-- In every state of a run the figures of an executor add up. Active are the children that have
not ended, which are as many as the registry holds and as hold up termination. A child that ends is
counted once, under the ending that its future keeps for ever. Once no task is ready the figures
are those of the futures. -/
theorem Reached.stats_add_up (hr : Reached f w) (hx : w.executors[e]? = some x)
    (hn : x.counters.submitted < UInt64.size) :
    ((w.statsOf e).submitted = (w.statsOf e).completed + (w.statsOf e).failed +
        (w.statsOf e).cancelled + (w.statsOf e).active ∧
      (w.statsOf e).finished =
        .ok ((w.statsOf e).completed + (w.statsOf e).failed + (w.statsOf e).cancelled)) ∧
    ((w.statsOf e).active = w.unended e ∧ x.registry.length = w.unended e ∧
      x.tracked = w.unended e) ∧
    (∀ k, (w.statsOf e).ended k = w.endedAs e k) ∧
    (∀ (f' : Focus) (w' : World V) (i : Nat) (child child' : Child V), Op f w f' w' →
      w.children[i]? = some child → child.executor = e → child.hasEnded = false →
      w'.children[i]? = some child' → child'.hasEnded = true →
      ∃ (o : Outcome V) (x' : Executor), w'.executors[e]? = some x' ∧
        x'.counters = countEnding x.counters (some o.ending) ∧
        ∀ (f'' : Focus) (w'' : World V), Ops f' w' f'' w'' → w''.outcomeOf child.cell = some o ∧
          ∃ child'', w''.children[i]? = some child'' ∧ child''.hasEnded = true) ∧
    (f = .caller none → w.ready = [] →
      (∀ k, (w.statsOf e).ended k = w.settledAs e k) ∧ (w.statsOf e).active = w.unsettled e) := by
  have hb := hr.audited e x hx
  have hs := hr.submitted_eq hx
  have ha := hr.active_eq hx
  have hended : ∀ k, (w.statsOf e).ended k = w.endedAs e k := by
    intro k
    rw [statsOf_eq hx, ← hb.ended]
    cases k <;> rfl
  refine ⟨⟨?_, ?_⟩, ⟨ha, hb.unended, hb.tracked⟩, hended, ?_, ?_⟩
  · rw [ha, statsOf_eq hx]
    exact hs
  · rw [statsOf_eq hx]
    exact if_pos (Nat.lt_of_le_of_lt (hs ▸ Nat.le_add_right _ _) hn)
  · intro f' w' i child child' op hc hce he hc' he'
    obtain ⟨o, x', ho, hx', hk⟩ := op.counts hr hx hc hce he hc' he'
    refine ⟨o, x', hx', hk, fun _ _ hops => ⟨hops.later.outcomeOf ho, ?_⟩⟩
    obtain ⟨child'', hc'', hl⟩ := hops.later.children i child' hc'
    exact ⟨child'', hc'', hl.hasEnded he'⟩
  · rintro rfl hq
    obtain ⟨hk, hu⟩ := hr.quiet_eq hq e
    exact ⟨fun k => (hended k).trans (hk k), ha.trans hu⟩

/-- Of four tasks one yields a value, one fails, one is cancelled and one waits for ever. -/
def fourFates : World Nat :=
  (World.start false).after
    [.call (.create "pool" none none none none),
      .call (.submit "pool" "a" none (.steps [.ok (some 7)])),
      .call (.submit "pool" "b" none (.steps [.err (.text "no")])),
      .call (.submit "pool" "c" none (.steps [.pending])),
      .call (.submit "pool" "d" none (.steps [.pending])),
      .settle, .call (.cancel "c" true), .settle]

theorem stats_add_up_fourFates :
    fourFates.statsOf 0 =
      { submitted := 4, completed := 1, failed := 1, cancelled := 1, active := 1 } ∧
    (∀ k, (fourFates.statsOf 0).ended k = fourFates.settledAs 0 k) ∧
    (fourFates.statsOf 0).active = fourFates.unsettled 0 :=
  ⟨by decide, (Reached.stats_add_up (Reached.after false _) rfl (by decide)).2.2.2.2 rfl rfl⟩

end TimedTasks

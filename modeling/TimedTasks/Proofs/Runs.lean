import TimedTasks.Proofs.Strides
/-!
The runs of a periodic task, one after the other. The history tells when its runs started and when
they returned. An operation starts a run, lets one return, gives one up, or leaves the runs alone;
so each run returns before the next one starts.
-/

namespace TimedTasks

variable {V : Type}

namespace Happening

/-- Whether a run of a task starts. -/
def isStart (c : Nat) : Happening V → Bool
  | .called k => k == c
  | _ => false

/-- Whether a run of a task succeeds. -/
def isReturn (c : Nat) : Happening V → Bool
  | .ended k (.returned _) => k == c
  | _ => false

variable {h : Happening V} {c : Nat}

theorem isStart_of_opens? (hq : h.opens? c = none) : h.isStart c = false := by
  cases h with
  | called k =>
    by_cases hk : k = c
    · simp [opens?, hk] at hq
    · simp [isStart, hk]
  | _ => rfl

theorem isReturn_of_opens? (hq : h.opens? c = none) : h.isReturn c = false := by
  cases h with
  | ended k r =>
    by_cases hk : k = c
    · simp [opens?, hk] at hq
    · cases r <;> simp [isReturn, hk]
  | _ => rfl

end Happening

/-- Whether some runs started and returned in turn: none started before the one before it had
returned, and all but the last, if not that one too, have returned. -/
structure InTurn (starts returns : List Instant) : Prop where
  least : returns.length ≤ starts.length
  most : starts.length ≤ returns.length + 1
  lasts : ∀ (n : Nat) (s t : Instant), starts[n]? = some s → returns[n]? = some t → s ≤ t
  follows : ∀ (n : Nat) (s t : Instant), starts[n + 1]? = some s → returns[n]? = some t → t ≤ s

namespace InTurn

variable {starts returns : List Instant} {t : Instant}

theorem nil : InTurn [] [] :=
  ⟨Nat.le_refl _, Nat.zero_le _, by simp, by simp⟩

/-- A run starts after all the others have returned. -/
theorem start (h : InTurn starts returns) (hlen : starts.length = returns.length)
    (ht : ∀ u ∈ returns, u ≤ t) : InTurn (starts ++ [t]) returns where
  least := by simp [hlen]
  most := by simp [hlen]
  lasts n s u hs hu := by
    rcases getElem?_concat_iff.mp hs with hs | ⟨rfl, -⟩
    · exact h.lasts n s u hs hu
    · rw [List.getElem?_eq_none (Nat.le_of_eq hlen.symm)] at hu
      cases hu
  follows n s u hs hu := by
    rcases getElem?_concat_iff.mp hs with hs | ⟨-, rfl⟩
    · exact h.follows n s u hs hu
    · exact ht u (List.mem_of_getElem? hu)

/-- The last run to start returns. -/
theorem returned (h : InTurn starts returns) (hlen : starts.length = returns.length + 1)
    (ht : ∀ s ∈ starts, s ≤ t) : InTurn starts (returns ++ [t]) where
  least := by simp [hlen]
  most := by simp [hlen]
  lasts n s u hs hu := by
    rcases getElem?_concat_iff.mp hu with hu | ⟨-, rfl⟩
    · exact h.lasts n s u hs hu
    · exact ht s (List.mem_of_getElem? hs)
  follows n s u hs hu := by
    rcases getElem?_concat_iff.mp hu with hu | ⟨rfl, -⟩
    · exact h.follows n s u hs hu
    · rw [List.getElem?_eq_none (Nat.le_of_eq hlen)] at hs
      cases hs

end InTurn

namespace World

/-- When the runs of a task started. -/
def startTimes (w : World V) (c : Nat) : List Instant :=
  (w.history.filter fun p => p.2.isStart c).map (·.1)

/-- When the runs of a task that succeeded returned. -/
def returnTimes (w : World V) (c : Nat) : List Instant :=
  (w.history.filter fun p => p.2.isReturn c).map (·.1)

variable {w w' : World V} {c : Nat} {l : List (Instant × Happening V)} {t : Instant}

theorem startTimes_append (h : w'.history = w.history ++ l) :
    w'.startTimes c = w.startTimes c ++ (l.filter fun p => p.2.isStart c).map (·.1) := by
  rw [startTimes, h, List.filter_append, List.map_append, startTimes]

theorem returnTimes_append (h : w'.history = w.history ++ l) :
    w'.returnTimes c = w.returnTimes c ++ (l.filter fun p => p.2.isReturn c).map (·.1) := by
  rw [returnTimes, h, List.filter_append, List.map_append, returnTimes]

/-- Whether nothing befell the runs of a task between two states. -/
structure SameRuns (w w' : World V) (c : Nat) : Prop where
  starts : w'.startTimes c = w.startTimes c
  returns : w'.returnTimes c = w.returnTimes c
  underWay : w'.underWay c = w.underWay c

theorem SameRuns.of_quiet (h : w'.history = w.history ++ l) (hq : ∀ p ∈ l, p.2.opens? c = none) :
    SameRuns w w' c where
  starts := by
    rw [startTimes_append h, List.filter_eq_nil_iff.mpr fun p hp => by
      simp [Happening.isStart_of_opens? (hq p hp)]]
    exact List.append_nil _
  returns := by
    rw [returnTimes_append h, List.filter_eq_nil_iff.mpr fun p hp => by
      simp [Happening.isReturn_of_opens? (hq p hp)]]
    exact List.append_nil _
  underWay := underWay_keep h hq

/-- Whether a run of a task started between two states, of which none was under way. -/
structure Starts (w w' : World V) (c : Nat) : Prop where
  starts : w'.startTimes c = w.startTimes c ++ [w.now]
  returns : w'.returnTimes c = w.returnTimes c
  opened : w'.underWay c = true
  closed : w.underWay c = false
  unsettled : w.outcomeOf c = none

/-- Whether a run of a task returned between two states. -/
structure Returns (w w' : World V) (c : Nat) : Prop where
  starts : w'.startTimes c = w.startTimes c
  returns : w'.returnTimes c = w.returnTimes c ++ [w.now]
  closed : w'.underWay c = false

theorem Returns.of_history {value : Option V}
    (h : w'.history = w.history ++ [(w.now, .ended c (.returned value))]) : Returns w w' c where
  starts := by
    rw [startTimes_append h]
    exact List.append_nil _
  returns := by
    rw [returnTimes_append h]
    simp [Happening.isReturn]
  closed := by
    rw [underWay_single h]
    simp [Happening.opens?]

/-- Whether a run of a task ended otherwise between two states, and settled its future. -/
structure GivesUp (w w' : World V) (c : Nat) : Prop where
  starts : w'.startTimes c = w.startTimes c
  returns : w'.returnTimes c = w.returnTimes c
  closed : w'.underWay c = false
  settled : w'.outcomeOf c ≠ none

end World

open World

variable {f f' : Focus} {w w' : World V} {i : Nat} {child : Child V}

/-! ## What an operation does to runs -/

theorem Addition.time {t : Instant} {l : List (Instant × Happening V)} (h : Addition t l) :
    ∀ p ∈ l, p.1 = t := by
  cases h <;> simp

/-- What has happened lies in the past. -/
theorem Reached.history_le (h : Reached f w) : ∀ p ∈ w.history, p.1 ≤ w.now := by
  refine h.induct (P := fun _ w => ∀ p ∈ w.history, p.1 ≤ w.now) (by simp [World.start]) ?_
  intro f₁ w₁ f₂ w₂ _ op ih p hp
  obtain ⟨l, hl, hadd, -⟩ := op.adds
  rw [hl] at hp
  refine Nat.le_trans ?_ op.later.now_le
  rcases List.mem_append.mp hp with hp | hp
  · exact ih p hp
  · exact Nat.le_of_eq (hadd.time p hp)

theorem Reached.startTimes_le (h : Reached f w) {c : Nat} : ∀ s ∈ w.startTimes c, s ≤ w.now := by
  intro s hs
  obtain ⟨p, hp, rfl⟩ := List.mem_map.mp hs
  exact h.history_le p (List.mem_filter.mp hp).1

theorem Reached.returnTimes_le (h : Reached f w) {c : Nat} : ∀ t ∈ w.returnTimes c, t ≤ w.now := by
  intro t ht
  obtain ⟨p, hp, rfl⟩ := List.mem_map.mp ht
  exact h.history_le p (List.mem_filter.mp hp).1

/-- A run ends while its body acts, and either the turn of a periodic task goes on after a success
or the child ends; or it is given up at the turn of a child, which ends. -/
theorem Op.ended (op : Op f w f' w') {l : List (Instant × Happening V)}
    (hl : w'.history = w.history ++ l) {t : Instant} {c : Nat} {r : RunEnd V}
    (hm : (t, .ended c r) ∈ l) :
    ∃ i child, w.children[i]? = some child ∧ child.cell = c ∧
      (f = .caller (some i) ∧ f' = .turn (.child i) ∧ child.work.kind = .periodic ∧
          (∃ value, r = .returned value) ∨
        f = .caller (some i) ∧ (child.work.kind = .periodic → ∀ value, r ≠ .returned value) ∧
          w'.children = w.children.modify i (fun x => { x with stage := .ended }) ∨
        f = .turn (.child i) ∧ r = .stopped ∧ child.hasEnded = false ∧
          w'.children = w.children.modify i (fun x => { x with stage := .ended })) := by
  have nothing : w'.history = w.history → False := by
    intro h
    rw [h, List.self_eq_append_right] at hl
    rw [hl] at hm
    cases hm
  have adds : ∀ {m : List (Instant × Happening V)}, w'.history = w.history ++ m →
      (∀ p ∈ m, ∀ k r, p.2 ≠ .ended k r) → False := by
    intro m h hn
    rw [List.append_cancel_left (h.symm.trans hl)] at hn
    exact hn _ hm c r rfl
  have own : ∀ {k : Nat} {q : RunEnd V}, (Happening.ended c r = .ended k q ∨
      Happening.ended c r = .cancelled k) → k = c ∧ r = q := by
    intro k q h
    rcases h with h | h
    · exact ⟨(Happening.ended.inj h).1.symm, (Happening.ended.inj h).2⟩
    · cases h
  cases op with
  | @again _ i child value' hc hk =>
    obtain rfl := List.append_cancel_left (show w.history ++ [_] = _ from hl)
    obtain ⟨-, h⟩ := Prod.mk.inj (List.mem_singleton.mp hm)
    obtain ⟨hcell, rfl⟩ := Happening.ended.inj h
    exact ⟨i, child, hc, hcell.symm, .inl ⟨rfl, rfl, hk, value', rfl⟩⟩
  | @finish _ i child q hc he hr hk =>
    obtain ⟨l', hl', -, hends⟩ :=
      finish_adds (w := w.modifyCell child.cell (·.leave q)) q hc
    obtain rfl : l' = l := List.append_cancel_left (hl'.symm.trans hl)
    obtain ⟨hcell, rfl⟩ := own (hends _ hm)
    exact ⟨i, child, hc, hcell, .inr (.inl ⟨rfl, hk,
      (finish_frame (w := w.modifyCell child.cell (·.leave r)) r hc).2.1⟩)⟩
  | @stop _ i child hc he hb =>
    obtain ⟨l', hl', -, hends⟩ := finish_adds .stopped hc
    obtain rfl : l' = l := List.append_cancel_left (hl'.symm.trans hl)
    obtain ⟨hcell, rfl⟩ := own (hends _ hm)
    exact ⟨i, child, hc, hcell, .inr (.inr ⟨rfl, rfl, he, (finish_frame .stopped hc).2.1⟩)⟩
  | @cancel _ _ c interrupt hg =>
    exact (adds (cancel_history_of_granted hg) (by simp)).elim
  | drain hr => exact (adds (List.append_assoc ..) (by simp)).elim
  | @start _ i child hc he hm hs hr hd => exact (adds (begin_history w i child) (by simp)).elim
  | poll hc | resume hc he hs | ask he hr | close hx h0 | terminate hd =>
    exact (adds (m := [_]) rfl (by simp)).elim
  | pause rest hc he ho hp | sleep hc he hp hs hk =>
    obtain ⟨-, -, -, -, -, -, -, hhistory, -⟩ := parkChild_frame _ hc
    exact (nothing hhistory).elim
  | openBatch name hr hw hn => exact (nothing (openBatch_frame w _ name _ _).2.2.2.2).elim
  | grant count => exact (nothing (by rw [addCancelledCells_cells])).elim
  | _ => exact (nothing rfl).elim

/-- A run returns while its body acts; and after a run of a periodic task its turn goes on. -/
theorem Op.returned (op : Op f w f' w') {l : List (Instant × Happening V)}
    (hl : w'.history = w.history ++ l) {t : Instant} {c : Nat} {value : Option V}
    (hm : (t, .ended c (.returned value)) ∈ l) :
    ∃ i child, f = .caller (some i) ∧ w.children[i]? = some child ∧ child.cell = c ∧
      (child.work.kind = .periodic → f' = .turn (.child i)) := by
  obtain ⟨i, child, hc, hcell, ⟨hf, hf', -⟩ | ⟨hf, hk, -⟩ | ⟨-, hr, -⟩⟩ := op.ended hl hm
  · exact ⟨i, child, hf, hc, hcell, fun _ => hf'⟩
  · exact ⟨i, child, hf, hc, hcell, fun hp => absurd rfl (hk hp value)⟩
  · cases hr

/-- The end of a run, before something that befalls no run. -/
theorem Op.ends_run (op : Op f w f' w') (hr : Reached f w) (hc : w.children[i]? = some child)
    (hk : child.work.kind = .periodic) {r : RunEnd V} {rest : List (Instant × Happening V)}
    (hl : w'.history = w.history ++ (w.now, .ended child.cell r) :: rest)
    (hq : ∀ p ∈ rest, p.2.opens? child.cell = none) :
    f = .caller (some i) ∧ f' = .turn (.child i) ∧ Returns w w' child.cell ∨
      GivesUp w w' child.cell := by
  have hstarts : w'.startTimes child.cell = w.startTimes child.cell := by
    rw [startTimes_append hl, List.filter_cons, if_neg (by simp [Happening.isStart]),
      List.filter_eq_nil_iff.mpr fun p hp => by simp [Happening.isStart_of_opens? (hq p hp)]]
    exact List.append_nil _
  have hrest : (rest.filter fun p => p.2.isReturn child.cell) = [] :=
    List.filter_eq_nil_iff.mpr fun p hp => by simp [Happening.isReturn_of_opens? (hq p hp)]
  have hway : w'.underWay child.cell = false := by
    rw [underWay_append hl, List.reverse_cons, List.findSome?_append,
      List.findSome?_eq_none_iff.mpr fun p hp => hq p (List.mem_reverse.mp hp)]
    simp [Happening.opens?]
  by_cases hret : ∃ value, r = .returned value
  · obtain ⟨value, rfl⟩ := hret
    obtain ⟨k, other, rfl, ho, hcell, hnext⟩ := op.returned hl List.mem_cons_self
    obtain rfl := hr.owned.apart ho hc hcell
    obtain rfl := Option.some.inj (hc.symm.trans ho)
    refine .inl ⟨rfl, hnext hk, hstarts, ?_, hway⟩
    rw [returnTimes_append hl, List.filter_cons, if_pos (by simp [Happening.isReturn]), hrest]
    rfl
  · refine .inr ⟨hstarts, ?_, hway, ?_⟩
    · rw [returnTimes_append hl, List.filter_cons, if_neg ?_, hrest]
      · exact List.append_nil _
      · cases r with
        | returned value => exact absurd ⟨value, rfl⟩ hret
        | _ => simp [Happening.isReturn]
    · -- Such an end decides the outcome, if nothing has before.
      obtain ⟨child', hc', hlater⟩ := op.later.children i child hc
      have hv := (hr.op op).judged.outcome child' (List.mem_of_getElem? hc')
      rw [hlater.cell, hlater.work] at hv
      rw [hv, Ne, List.findSome?_eq_none_iff]
      intro hnone
      have h := hnone (w.now, .ended child.cell r) (by rw [hl]; simp)
      simp only [Happening.verdict?, if_true] at h
      cases r with
      | returned value => exact hret ⟨value, rfl⟩
      | _ => simp [Work.verdict?] at h

/-- What an operation does to the runs of a periodic task. -/
theorem Op.run_cases (op : Op f w f' w') (hr : Reached f w) (hc : w.children[i]? = some child)
    (hk : child.work.kind = .periodic) :
    SameRuns w w' child.cell ∨
    (f = .turn (.child i) ∧ f' = .caller (some i) ∧ w.dueTime child ≤ w.now ∧
      Starts w w' child.cell) ∨
    (f = .caller (some i) ∧ f' = .turn (.child i) ∧ Returns w w' child.cell) ∨
    GivesUp w w' child.cell := by
  obtain ⟨l, hl, hadd, harises⟩ := op.adds
  by_cases hq : ∀ p ∈ l, p.2.opens? child.cell = none
  · exact .inl (.of_quiet hl hq)
  refine .inr ?_
  cases hadd with
  | nothing => exact absurd (by simp) hq
  | drained e => exact absurd (by simp [Happening.opens?]) hq
  | single h =>
    cases h with
    | called k =>
      have hk' : k = child.cell := by simpa [Happening.opens?] using hq
      subst hk'
      obtain ⟨j, other, rfl, rfl, ho, hcell, hm, -, hd⟩ := harises _ (List.mem_singleton_self _)
      obtain rfl := hr.owned.apart ho hc hcell
      obtain rfl := Option.some.inj (hc.symm.trans ho)
      obtain ⟨cell, hcell, hphase, hout⟩ := mayStart_iff.mp hm
      have hn : w.outcomeOf child.cell = none := by rw [outcomeOf, hcell]; exact hout
      refine .inl ⟨rfl, rfl, hd, ?_, (returnTimes_append hl).trans (List.append_nil _), ?_, ?_, hn⟩
      · rw [startTimes_append hl]
        simp [Happening.isStart]
      · rw [underWay_single hl]
        simp [Happening.opens?]
      · -- A cell of which a run is under way may not start another.
        refine Bool.eq_false_iff.mpr fun hway => ?_
        have := (hr.phased child (List.mem_of_getElem? hc) hn).mp hway
        simp [phaseOf?, hcell, hphase] at this
    | ended k r =>
      have hk' : k = child.cell := by simpa [Happening.opens?] using hq
      subst hk'
      exact .inr (op.ends_run hr hc hk hl (by simp))
    | _ => exact absurd (by simp [Happening.opens?]) hq
  | aborted k r =>
    have hk' : k = child.cell := by simpa [Happening.opens?] using hq
    subst hk'
    exact .inr (op.ends_run hr hc hk hl (by simp [Happening.opens?]))

/-! ## Runs in turn -/

namespace World

/-- Whether the runs of a task are had in turn. -/
structure RunsInTurn (w : World V) (c : Nat) : Prop where
  inTurn : InTurn (w.startTimes c) (w.returnTimes c)
  going : w.underWay c = true → (w.startTimes c).length = (w.returnTimes c).length + 1
  resting : w.underWay c = false → w.outcomeOf c = none →
    (w.startTimes c).length = (w.returnTimes c).length

/-- Nothing has befallen a task that has not come in. -/
theorem Judged.no_runs (h : Judged w) {c : Nat} (hc : w.cells.length ≤ c) :
    w.startTimes c = [] ∧ w.returnTimes c = [] := by
  have hquiet : ∀ p ∈ w.history, p.2.opens? c = none := fun p hp =>
    Happening.opens?_of_cell? fun hk => absurd (h.within p hp c hk) (Nat.not_lt.mpr hc)
  constructor
  · rw [startTimes, List.filter_eq_nil_iff.mpr fun p hp => by
      simp [Happening.isStart_of_opens? (hquiet p hp)]]
    rfl
  · rw [returnTimes, List.filter_eq_nil_iff.mpr fun p hp => by
      simp [Happening.isReturn_of_opens? (hquiet p hp)]]
    rfl

theorem Judged.runsInTurn (h : Judged w) {c : Nat} (hc : w.cells.length ≤ c) : w.RunsInTurn c := by
  obtain ⟨hstarts, hreturns⟩ := h.no_runs hc
  refine ⟨?_, fun hway => ?_, fun _ _ => by rw [hstarts, hreturns]⟩
  · rw [hstarts, hreturns]
    exact .nil
  · rw [h.underWay_eq_false hc] at hway
    cases hway

end World

/-- The runs of a periodic task stay in turn. -/
theorem Move.runsInTurn (m : Move f w f' w') (hw : Walked f w) (hc : w.children[i]? = some child)
    (hk : child.work.kind = .periodic) (h : w.RunsInTurn child.cell) :
    w'.RunsInTurn child.cell := by
  have hr := hw.reached
  have hunsettled : w'.outcomeOf child.cell = none → w.outcomeOf child.cell = none := by
    intro hn
    cases ho : w.outcomeOf child.cell with
    | none => rfl
    | some o => exact (m.op.later.outcomeOf ho).symm.trans hn
  rcases m.op.run_cases hr hc hk with hsame | ⟨-, -, -, hstart⟩ | ⟨hf, -, hreturn⟩ | hgives
  · refine ⟨?_, ?_, ?_⟩ <;> rw [hsame.starts, hsame.returns]
    · exact h.inTurn
    · rw [hsame.underWay]
      exact h.going
    · rw [hsame.underWay]
      exact fun hway hn => h.resting hway (hunsettled hn)
  · have hlen := h.resting hstart.closed hstart.unsettled
    refine ⟨?_, fun _ => ?_, fun hway => ?_⟩
    · rw [hstart.starts, hstart.returns]
      exact h.inTurn.start hlen hr.returnTimes_le
    · rw [hstart.starts, hstart.returns, List.length_append, hlen]
      rfl
    · rw [hstart.opened] at hway
      cases hway
  · -- The body acts, so the run is under way.
    have hlen := h.going (hw.steady.acting (congrArg Focus.body? hf) hc)
    refine ⟨?_, fun hway => ?_, fun _ _ => ?_⟩
    · rw [hreturn.starts, hreturn.returns]
      exact h.inTurn.returned hlen hr.startTimes_le
    · rw [hreturn.closed] at hway
      cases hway
    · rw [hreturn.starts, hreturn.returns, List.length_append, hlen]
      rfl
  · refine ⟨?_, fun hway => ?_, fun _ hn => absurd hn hgives.settled⟩
    · rw [hgives.starts, hgives.returns]
      exact h.inTurn
    · rw [hgives.closed] at hway
      cases hway

end TimedTasks

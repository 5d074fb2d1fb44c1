import TimedTasks.Proofs.Burden
import TimedTasks.Proofs.DueTimes
/-!
While the clock stands still, tasks come to rest. Every turn lowers the burden: a task that is ready
does not wait for anything that is yet to come, so it goes on, and what it goes on with is paid for
by the steps that its body has left, by a run that it was late for, or by its own turn.
-/

namespace TimedTasks

open World

variable {V : Type}

/-- What a run that has come so far can still make ready. One that waits for a cell may be woken
once more. -/
def Progress.load : Progress V → Nat
  | .suspended (.cell ..) rest => 1 + Step.loads rest
  | .suspended _ rest => Step.loads rest
  | .ended _ => 0

namespace World

variable {w w' : World V} {i : Nat} {child : Child V} {f : Focus}

/-! ## Bodies -/

theorem note_sameWork (w : World V) (who : String) (event : Event V) :
    SameWork w (w.note who event) :=
  .of_perm rfl rfl rfl rfl (fun _ => rfl) (.refl _)

theorem note_toils (who : String) (event : Event V) : Toils 0 f w f (w.note who event) :=
  .same (note_leads who event).ops (note_sameWork ..)

/-- The steps that a body takes and those that it has left make no more ready than all of them. -/
theorem runSteps_toils (who : String) (s : List (Step V)) {b : Option Nat} :
    ∃ n, Toils n (.caller b) w (.caller b) (w.runSteps who s).1 ∧
      n + (w.runSteps who s).2.load ≤ Step.loads s := by
  induction s generalizing w with
  | nil => exact ⟨0, note_toils _ _, Nat.le_refl _⟩
  | cons step rest ih =>
    have next : ∀ {w' : World V} {m k : Nat}, Toils m (.caller b) w (.caller b) w' →
        m + Step.loads rest ≤ k → ∃ n, Toils n (.caller b) w (.caller b) (w'.runSteps who rest).1 ∧
          n + (w'.runSteps who rest).2.load ≤ k := by
      intro w' m k h hk
      obtain ⟨n, hn, hle⟩ := ih (w := w')
      exact ⟨m + n, h.trans hn, by omega⟩
    have hloads : Step.loads (step :: rest) = step.load + Step.loads rest := rfl
    cases step with
    | sleep d =>
      unfold runSteps
      split
      · exact ⟨0, .refl, by rw [hloads]; exact Nat.le_refl _⟩
      · split
        · exact next (note_toils _ _) (by rw [hloads]; exact Nat.le_refl _)
        · exact ⟨0, .refl, by rw [hloads]; exact Nat.le_refl _⟩
    | act c =>
      refine next ((perform_toils c).trans (note_toils _ _)) ?_
      rw [hloads]
      exact Nat.le_refl _
    | get name =>
      unfold runSteps
      split
      · exact ⟨0, note_toils _ _, Nat.zero_le _⟩
      · split
        · exact next (note_toils _ _) (by omega)
        · exact ⟨0, .refl, by rw [hloads, Nat.zero_add]; exact Nat.le_refl _⟩
    | join name =>
      unfold runSteps
      split
      · exact ⟨0, note_toils _ _, Nat.zero_le _⟩
      · split
        · exact next (note_toils _ _) (by omega)
        · exact ⟨0, note_toils _ _, Nat.zero_le _⟩
        · exact ⟨0, .refl, by rw [hloads, Nat.zero_add]; exact Nat.le_refl _⟩
    | ok value => exact ⟨0, note_toils _ _, Nat.zero_le _⟩
    | err cause => exact ⟨0, note_toils _ _, Nat.zero_le _⟩
    | panic => exact ⟨0, note_toils _ _, Nat.zero_le _⟩
    | pending => exact ⟨0, .refl, by rw [hloads]; exact Nat.le_refl _⟩

/-- A body goes on when what it waited for has come. -/
theorem resumeSteps_toils (who : String) {on : Wait} (hp : ¬ on.Pending w) (rest : List (Step V))
    {b : Option Nat} : ∃ n, Toils n (.caller b) w (.caller b) (w.resumeSteps who on rest).1 ∧
      n + (w.resumeSteps who on rest).2.load ≤ Step.loads rest := by
  have next : ∀ event, ∃ n,
      Toils n (.caller b) w (.caller b) ((w.note who event).runSteps who rest).1 ∧
        n + ((w.note who event).runSteps who rest).2.load ≤ Step.loads rest := by
    intro event
    obtain ⟨n, hn, hle⟩ := runSteps_toils (w := w.note who event) who rest (b := b)
    exact ⟨0 + n, (note_toils who event).trans hn, by omega⟩
  unfold resumeSteps
  cases on with
  | forever => exact absurd trivial hp
  | time t =>
    dsimp only
    rw [if_pos (Nat.le_of_not_lt hp)]
    exact next _
  | cell c joined =>
    dsimp only
    split
    · rename_i hread
      exact absurd (isSettled_of_read? hread) hp
    · exact ⟨0, note_toils _ _, Nat.zero_le _⟩
    · exact next _

theorem runBody_toils (hc : w.children[i]? = some child) (who : String) (body : Body V) :
    ∃ n, Toils n (.caller (some i)) w (.caller (some i)) (w.runBody child.cell who body).1 ∧
      n + (w.runBody child.cell who body).2.load ≤ body.load := by
  cases body with
  | broken => exact ⟨0, .refl, Nat.le_refl _⟩
  | steps s =>
    have hpoll : Toils 0 (.caller (some i)) w (.caller (some i)) (w.record (.polled child.cell)) :=
      .same (fun _ => (Op.poll hc).ops) (.of_perm rfl rfl rfl rfl (fun _ => rfl) (.refl _))
    obtain ⟨n, hn, hle⟩ := runSteps_toils (w := (w.record (.polled child.cell)).note who .started)
      who s (b := some i)
    exact ⟨n, ((hpoll.trans (note_toils who .started)).trans hn).mono (by omega), hle⟩

end World

/-! ## The task whose turn it is -/

/-- Nobody was touched but the task whose turn it is, which may be in line again. -/
theorem Toils.alone {n : Nat} {f f' : Focus} {w w' : World V} {l : List TaskRef}
    (h : Reached f w → Ops f w f' w') (clock : w'.clock = w.clock)
    (executors : w'.executors.length = w.executors.length)
    (children : w'.children.length = w.children.length)
    (child : ∀ k x, f.task? ≠ some (.child k) → w.children[k]? = some x →
      w'.children[k]? = some x ∧ w'.markOf? x.cell = w.markOf? x.cell)
    (waiter : ∀ k x, f.task? ≠ some (.waiter k) → w.waiters[k]? = some x →
      w'.waiters[k]? = some x)
    (starts : ∀ c < w.cells.length, w'.startsLeft c ≤ w.startsLeft c)
    (queue : w'.queue.Perm (l ++ w.queue)) (hn : total w'.burdenOf l ≤ n) :
    Toils n f w f' w' := by
  apply Toils.known
  intro hr
  refine .of_total (k := 0) h clock executors (fun k x hk hx => ?_) starts fun hin => ?_
  · have hlt := (List.getElem?_eq_some_iff.mp hx).1
    rw [children] at hlt
    exact absurd hlt (Nat.not_lt_of_le hk)
  · have hrest : total w'.burdenOf w.queue = total w.burdenOf w.queue := by
      refine total_congr fun r hm => hin.burdenOf_eq hm clock (fun k x hk => child k x ?_)
        fun k x hk => waiter k x ?_
      · exact hk ▸ fun hf => hr.placed.notMem hf hm
      · exact hk ▸ fun hf => hr.placed.notMem hf hm
    rw [total_perm queue, total_append, hrest, Nat.add_comm]
    exact Nat.add_le_add_left hn _

/-- Only the child whose turn it is was touched. -/
theorem Toils.own {n : Nat} {f f' : Focus} {w w' : World V} {i : Nat} {g : Child V → Child V}
    {l : List TaskRef} (h : Reached f w → Ops f w f' w') (hf : f.task? = some (.child i))
    (clock : w'.clock = w.clock) (executors : w'.executors.length = w.executors.length)
    (children : w'.children = w.children.modify i g) (waiters : w'.waiters = w.waiters)
    (marks : ∀ c, w'.markOf? c = w.markOf? c) (queue : w'.queue.Perm (l ++ w.queue))
    (hn : total w'.burdenOf l ≤ n) : Toils n f w f' w' := by
  refine .alone h clock executors (by rw [children, List.length_modify]) (fun k x hk hx => ?_)
    (fun _ _ _ hx => waiters ▸ hx) (fun c _ => Nat.le_of_eq (startsLeft_eq clock (marks c)))
    queue hn
  have hne : i ≠ k := fun h => hk (h ▸ hf)
  exact ⟨by rw [children, List.getElem?_modify_ne _ _ hne, hx], marks x.cell⟩

namespace World

variable {w w' : World V} {i : Nat} {child : Child V} {f f' : Focus}

/-- What a child can still do that waits in a stage. -/
theorem burdenOf_parkChild (hc : w.children[i]? = some child) (s : Stage V) :
    (w.parkChild i s).burdenOf (.child i) =
      ({ child with stage := s } : Child V).burden w.now (w.startsLeft child.cell) := by
  obtain ⟨hclock, -, hcells, hchildren, -⟩ := parkChild_frame s hc
  have hnow : (w.parkChild i s).now = w.now := congrArg (·.elapsed.nanos) hclock
  have hstarts : (w.parkChild i s).startsLeft child.cell = w.startsLeft child.cell :=
    startsLeft_eq hclock (by rw [markOf?, markOf?, hcells])
  have hc' : (w.parkChild i s).children[i]? = some { child with stage := s } := by
    rw [hchildren, List.getElem?_modify_eq, hc]
    rfl
  simp only [burdenOf, hc', Option.map_some, Option.getD_some, hnow, hstarts]

theorem parkChild_toils {n : Nat} {s : Stage V} (hc : w.children[i]? = some child)
    (h : Reached f w → Ops f w f' (w.parkChild i s)) (hf : f.task? = some (.child i))
    (hn : ({ child with stage := s } : Child V).burden w.now (w.startsLeft child.cell) ≤ n) :
    Toils n f w f' (w.parkChild i s) := by
  obtain ⟨hclock, hexecutors, hcells, hchildren, hwaiters, -⟩ := parkChild_frame s hc
  refine .own (l := [.child i]) h hf hclock (congrArg _ hexecutors) hchildren hwaiters
    (fun c => by rw [markOf?, markOf?, hcells]) (parkChild_queue w s hc) ?_
  rw [total, total, burdenOf_parkChild hc]
  exact hn

theorem finish_toils {w₀ : World V} (hc : w.children[i]? = some child) (r : RunEnd V)
    (h : Reached f w₀ → Ops f w₀ f' (w.finish i child r)) (hf : f.task? = some (.child i))
    (clock : w.clock = w₀.clock) (executors : w.executors = w₀.executors)
    (children : w.children = w₀.children) (waiters : w.waiters = w₀.waiters)
    (marks : ∀ c, w.markOf? c = w₀.markOf? c) (queue : w.queue = w₀.queue) :
    Toils 0 f w₀ f' (w.finish i child r) := by
  obtain ⟨hclock, hchildren, hwaiters, -⟩ := finish_frame r hc
  refine .own (l := []) h hf (hclock.trans clock) ?_ (children ▸ hchildren)
    (hwaiters.trans waiters) (fun c => ?_) (queue ▸ finish_queue ..) (Nat.le_refl 0)
  · rw [finish_executors r hc, List.length_modify, executors]
  · rw [markOf?_modify (finish_cells r hc) fun cell => Cell.cancelBy_mark _ _, marks]

/-- A run that ends, and is not to be followed by another one, ends its task. -/
theorem end_toils (h : w.Has i child) {r : RunEnd V} (hr : r ≠ .stopped)
    (hk : child.work.kind = .periodic → ∀ value, r ≠ .returned value) :
    Toils 0 (.caller (some i)) w (.caller none)
      ((w.closeRun child.cell (.ended r)).1.finish i child r) := by
  have hleads := finish_leads h hr hk
  obtain ⟨cur, hc, hl, -⟩ := h
  rw [closeRun_ended, ← finish_congr hl] at hleads ⊢
  refine finish_toils (w := w.modifyCell child.cell (·.leave r)) hc r hleads.ops rfl rfl rfl rfl rfl
    (fun c => ?_) rfl
  exact markOf?_modify (c := child.cell) rfl fun cell => by cases r <;> rfl

theorem giveUp_toils (h : w.Has i child)
    (hb : w.isSettled child.cell = true ∨ w.mayRun child.executor child.work.kind = false) :
    Toils 0 (.turn (.child i)) w (.caller none) (w.giveUp i child) := by
  have hleads := stop_leads h hb
  obtain ⟨cur, hc, hl, -⟩ := h
  rw [giveUp, ← finish_congr hl] at hleads ⊢
  exact finish_toils hc .stopped hleads.ops rfl rfl rfl rfl rfl (fun _ => rfl) rfl

/-- A body that waits has one turn before it, and one more if it waits for a cell. -/
theorem pause_toils (h : w.Has i child) {on : Wait} (rest : List (Step V))
    (hp : (Progress.suspended on rest).Fits w) :
    Toils ((Progress.suspended on rest).load + child.work.loadAfter (w.startsLeft child.cell) + 1)
      (.caller (some i)) w (.caller none) (w.parkChild i (.suspended on rest)) := by
  obtain ⟨cur, hc, hl, -⟩ := h
  refine parkChild_toils hc (pause_leads rest hp.1 hp.2).ops rfl ?_
  unfold Child.burden
  rw [hl.work, hl.cell]
  cases on with
  | time t =>
    have ht : w.now < t := hp.2
    simp only [Stage.turnsLeft, Progress.load, if_pos ht]
    omega
  | cell c joined =>
    simp only [Stage.turnsLeft, Progress.load]
    omega
  | forever =>
    simp only [Stage.turnsLeft, Progress.load]
    omega

/-- What follows a piece of the only run of a child. -/
theorem afterOnce_toils {p : Progress V} (h : w.Has i child) (hk : child.work.kind ≠ .periodic)
    (hp : p.Fits w) :
    Toils (p.load + 1) (.caller (some i)) w (.caller none)
      ((w.closeRun child.cell p).1.afterOnce i child (w.closeRun child.cell p).2) := by
  rw [closeRun_snd]
  cases p with
  | suspended on rest =>
    have hload : child.work.loadAfter (w.startsLeft child.cell) = 0 := by
      cases hw : child.work with
      | periodic pace runs => exact absurd (by rw [hw]; rfl) hk
      | _ => rfl
    have hpause := pause_toils h rest hp
    rwa [hload] at hpause
  | ended r => exact (end_toils h hp fun hk' => absurd hk' hk).mono (Nat.zero_le _)

/-- A run that starts goes on until its body waits or ends. -/
theorem startRun_toils (who : String) (body : Body V) (hr : Reached (.turn (.child i)) w)
    (h : w.Has i child) (hp : w.Rests child.cell) (hs : w.isSignalled child.cell = false)
    (hm : w.mayRun child.executor child.work.kind = true) (hd : w.dueTime child ≤ w.now) :
    ∃ (w₂ : World V) (p : Progress V) (n : Nat),
      (w.countRun i child).startRun child.cell who body = w₂.closeRun child.cell p ∧
        Toils n (.turn (.child i)) w (.caller (some i)) w₂ ∧ p.Fits w₂ ∧
        n + p.load ≤ body.load := by
  obtain ⟨w₂, p, hrun, -, hfits, hbegun, hbody⟩ := startRun_leads who body hr h hp hs hm hd
  obtain ⟨cur, hc, hl, -⟩ := h
  obtain ⟨hclock, hexecutors, hwaiters, -, hready, hwaiting, -⟩ := countRun_frame w i child
  have hcells : (w.begun i child).cells =
      w.cells.modify child.cell fun cell => { cell with phase := .running } :=
    congrArg (List.modify · _ _) (countRun_cells w i child)
  have hqueue : (w.begun i child).queue = w.queue := congrArg₂ (· ++ ·) hready hwaiting
  have hbegin : Toils 0 (.turn (.child i)) w (.caller (some i)) (w.begun i child) := by
    exact .own (l := []) (fun _ => hbegun) rfl hclock (congrArg _ hexecutors)
      (countRun_children w i child) hwaiters (fun _ => markOf?_modify hcells fun _ => rfl)
      (.of_eq hqueue) (Nat.le_refl 0)
  obtain ⟨cur', hc', hl'⟩ := hbegun.later.children i cur hc
  obtain ⟨n, hn, hle⟩ := runBody_toils hc' who body
  rw [hl'.cell, hl.cell, hbody] at hn hle
  exact ⟨w₂, p, n, hrun, (hbegin.trans hn).mono (Nat.le_of_eq (Nat.zero_add n)), hfits, hle⟩

end World

namespace World

/-! ## Where a turn leaves its task -/

/-- If a child waits for a time, it is yet to come. -/
def Parked (w : World V) (i : Nat) : Prop :=
  ∀ child due, w.children[i]? = some child → child.stage = .scheduled due → w.now < due

variable {w : World V} {i : Nat} {child : Child V}

theorem parkChild_parked {s : Stage V} (hs : ∀ due, s = .scheduled due → w.now < due) :
    (w.parkChild i s).Parked i := by
  have hstage : ∀ w' : World V, w'.now = w.now → w'.children = (w.setStage i s).children →
      w'.Parked i := by
    intro w' hnow hchildren x due hx hst
    rw [hchildren] at hx
    obtain ⟨y, -, ⟨-, rfl⟩ | ⟨hi, -⟩⟩ := exists_getElem?_of_modify hx
    · exact hnow ▸ hs due hst
    · exact absurd rfl hi
  unfold parkChild
  dsimp only
  split
  · exact hstage _ rfl rfl
  · split <;> exact hstage _ rfl rfl

theorem finish_parked (r : RunEnd V) : (w.finish i child r).Parked i := by
  intro x due hx hst
  rw [finish] at hx
  cases hc : (w.deliver child r).children[i]? with
  | none =>
    rw [endChild, hc] at hx
    exact absurd (hc.symm.trans hx) (by simp)
  | some cur =>
    rw [(endChild_frame hc).2.1] at hx
    obtain ⟨y, -, ⟨-, rfl⟩ | ⟨hi, -⟩⟩ := exists_getElem?_of_modify hx
    · cases hst
    · exact absurd rfl hi

theorem afterOnce_parked (p : Progress V) : (w.afterOnce i child p).Parked i := by
  cases p with
  | suspended on rest => exact parkChild_parked fun due h => by cases h
  | ended r => exact finish_parked r

/-- What follows a piece of a run of a periodic child, if it is not to look for its due time. -/
theorem afterFiring_parked {pace : Pace} {p : Progress V} {w' : World V}
    (h : w.afterFiring i child pace p = (w', .settled)) : w'.Parked i := by
  have settled : ∀ {u : World V}, u.Parked i → (u, AfterRun.settled) = (w', .settled) →
      w'.Parked i := fun hu he => (Prod.mk.inj he).1 ▸ hu
  cases p with
  | suspended on rest => exact settled (parkChild_parked fun due h => by cases h) h
  | ended r =>
    cases r with
    | stopped => exact settled (finish_parked _) h
    | panicked => exact settled (finish_parked _) h
    | failed cause => exact settled (finish_parked _) h
    | returned value =>
      unfold afterFiring at h
      dsimp only at h
      split at h
      · cases h
      · split at h
        · exact settled (finish_parked _) h
        · exact settled (parkChild_parked fun due h => by cases h) h

theorem delayedTurn_parked (due : Instant) (body : Body V) :
    (w.delayedTurn i child due body).Parked i := by
  unfold delayedTurn
  split
  · exact finish_parked _
  · split
    · rename_i hnow
      refine parkChild_parked fun t ht => ?_
      obtain rfl := Stage.scheduled.inj ht
      exact hnow
    · split
      · exact finish_parked _
      · exact afterOnce_parked _

end World

/-! ## Periodic tasks -/

theorem startsLeft_of_lt {now due : Instant} (h : now < due) : startsLeft now due = 0 := if_pos h

theorem startsLeft_le_one {now due : Instant} (h : now ≤ due) : startsLeft now due ≤ 1 := by
  unfold startsLeft
  split
  · exact Nat.zero_le _
  · rename_i hn
    exact Nat.le_of_eq (if_pos (Nat.le_antisymm (Nat.le_of_not_lt hn) h))

theorem startsLeft_of_gt {now due : Instant} (h : due < now) : startsLeft now due = 2 := by
  unfold startsLeft
  rw [if_neg (Nat.not_lt_of_gt h), if_neg (Nat.ne_of_lt h)]

/-- The mark for a due time yet to come stands for a time yet to come, be it another one or not. -/
theorem Mark.lt_due {origin due now : Nat} (hnow : now < origin + (UInt64.size - 1))
    (h : now < due) : now < (Mark.ofInstant origin due).due := by
  show now < origin + min (due - origin) (UInt64.size - 1)
  generalize UInt64.size - 1 = s at hnow ⊢
  omega

theorem Mark.le_due {origin due now : Nat} (hnow : now < origin + (UInt64.size - 1))
    (h : now ≤ due) : now ≤ (Mark.ofInstant origin due).due := by
  show now ≤ origin + min (due - origin) (UInt64.size - 1)
  generalize UInt64.size - 1 = s at hnow ⊢
  omega

theorem startsLeft_pos {now due : Instant} (h : due ≤ now) : 1 ≤ startsLeft now due := by
  unfold startsLeft
  rw [if_neg (Nat.not_lt_of_le h)]
  split <;> decide

/-- A periodic task that has run is due later than before, and if it was due by now, later than that
or now: so it is late for one run at most, and due now for one more. -/
theorem startsLeft_next {m : Mark} {pace : Pace} {now next : Instant}
    (hpace : pace.interval.nanos ≠ 0) (hnow : now < m.origin + (UInt64.size - 1))
    (hnext : pace.next? m.due now = some next) :
    startsLeft now (Mark.ofInstant m.origin next).due ≤ startsLeft now m.due - 1 := by
  have hlate : now ≤ next ∧ (now ≤ m.due → now < next) := by
    cases pace with
    | fixedRate period =>
      obtain ⟨t, ht, rfl⟩ := Option.map_eq_some_iff.mp hnext
      obtain rfl := Instant.after?_eq_some ht
      have hpos : 0 < period.nanos := Nat.pos_of_ne_zero hpace
      exact ⟨Nat.le_max_right .., fun h => Nat.lt_of_lt_of_le
        (Nat.lt_of_le_of_lt h (Nat.lt_add_of_pos_right hpos)) (Nat.le_max_left ..)⟩
    | fixedDelay delay =>
      obtain rfl := Instant.after?_eq_some hnext
      have hpos : now < now + delay.nanos := Nat.lt_add_of_pos_right (Nat.pos_of_ne_zero hpace)
      exact ⟨Nat.le_of_lt hpos, fun _ => hpos⟩
  obtain ⟨hle, hlt⟩ := hlate
  by_cases h : now ≤ m.due
  · rw [startsLeft_of_lt (Mark.lt_due hnow (hlt h))]
    exact Nat.zero_le _
  · rw [startsLeft_of_gt (Nat.lt_of_not_le h)]
    exact startsLeft_le_one (Mark.le_due hnow hle)

namespace World

variable {w w' : World V} {i : Nat} {child : Child V} {f f' : Focus} {pace : Pace}
  {runs : List (Body V)}

/-- The clock has not come so far past the time at which an executor was made that a mark cannot
hold the difference. -/
def InTime (w : World V) : Prop := ∀ x ∈ w.executors, w.now < x.origin + (UInt64.size - 1)

/-- An executor that is made while the clock stands still is made now. -/
theorem InTime.ops (h : w.InTime) (hr : Reached f w) (ops : Ops f w f' w')
    (clock : w'.clock = w.clock) : w'.InTime := by
  have horigins := (ops.induct (P := fun _ w' => w.now ≤ w'.now ∧ ∀ x ∈ w'.executors,
    (∃ y ∈ w.executors, x.origin = y.origin) ∨ w.now ≤ x.origin) hr
    ⟨Nat.le_refl _, fun x hx => .inl ⟨x, hx, rfl⟩⟩ fun hr op ⟨hle, horigins⟩ =>
      ⟨Nat.le_trans hle op.later.clock, fun x hx => by
        rcases op.origins x hx with ⟨y, hy, ho⟩ | ho
        · rw [ho]
          exact horigins y hy
        · exact .inr (ho ▸ hle)⟩).2
  have hnow : w'.now = w.now := congrArg (·.elapsed.nanos) clock
  intro x hx
  rw [hnow]
  rcases horigins x hx with ⟨y, hy, ho⟩ | ho
  · exact ho ▸ h y hy
  · exact Nat.lt_of_le_of_lt ho (Nat.lt_add_of_pos_right (by decide))

theorem TimedChild.of_later {cur : Child V} (h : w.TimedChild cur) (hl : Child.Later child cur) :
    w.TimedChild child := fun pace runs hw => by
  have := h pace runs (hl.work.trans hw)
  rwa [hl.cell] at this

/-- A run that succeeds leaves its task with fewer runs to start. -/
theorem succeed_starts (hw : child.work = .periodic pace runs) (ht : w.TimedChild child)
    (hin : w.InTime) {next : Instant} (hn : pace.next? (w.dueTime child) w.now = some next)
    (value : Option V) :
    (w.succeed child pace value).startsLeft child.cell ≤ w.startsLeft child.cell - 1 := by
  obtain ⟨hpace, m, hm, x, hx, horigin⟩ := ht pace runs hw
  have hmark := succeed_markOf? hn value
  have hnow : (w.succeed child pace value).now = w.now :=
    congrArg (·.elapsed.nanos) (succeed_frame ..).1
  rw [dueTime_periodic hw, hm] at hn
  rw [hm] at hmark
  rw [World.startsLeft, World.startsLeft, hmark, hm, hnow]
  exact startsLeft_next hpace (horigin ▸ hin x hx) hn

theorem succeed_toils (h : w.Has i child) (hw : child.work = .periodic pace runs)
    (ht : w.TimedChild child) (hin : w.InTime) (value : Option V) :
    Toils 0 (.caller (some i)) w (.turn (.child i)) (w.succeed child pace value) := by
  apply Toils.known
  intro hr
  have hleads := succeed_leads h hw value
  obtain ⟨cur, hc, hl, -⟩ := h
  obtain ⟨hclock, hchildren, -⟩ := w.succeed_frame child pace value
  have hexecutors : (w.succeed child pace value).executors = w.executors := by
    unfold succeed; dsimp only; split <;> rfl
  have hwaiters : (w.succeed child pace value).waiters = w.waiters := by
    unfold succeed; dsimp only; split <;> rfl
  have hqueue : (w.succeed child pace value).queue = w.queue := by
    unfold succeed; dsimp only; split <;> rfl
  refine .alone (l := []) hleads.ops hclock (congrArg _ hexecutors) (congrArg _ hchildren)
    (fun k other hk ho => ⟨hchildren ▸ ho, ?_⟩) (fun _ _ _ hx => hwaiters ▸ hx) (fun c _ => ?_)
    (.of_eq hqueue) (Nat.le_refl 0)
  · refine succeed_markOf?_of_ne (fun he => hk ?_) value
    rw [hr.owned.apart ho hc (he.trans hl.cell.symm)]
    rfl
  · by_cases hcell : c = child.cell
    · subst hcell
      cases hn : pace.next? (w.dueTime child) w.now with
      | none => exact Nat.le_of_eq (startsLeft_eq hclock (succeed_markOf?_of_none hn value))
      | some next =>
        exact Nat.le_trans (succeed_starts hw ht hin hn value) (Nat.sub_le _ _)
    · exact Nat.le_of_eq (startsLeft_eq hclock (succeed_markOf?_of_ne hcell value))

/-- A task that has no due time any more has one turn before it, in which it is given up. -/
theorem strand_toils (h : w.Has i child) (hk : child.work.kind = .periodic)
    (hp : w.Rests child.cell) :
    Toils 1 (.turn (.child i)) w (.caller none) (w.parkChild i .stranded) := by
  obtain ⟨cur, hc, hl, he⟩ := h
  exact parkChild_toils hc
    (fun _ => (Op.sleep hc he (hl.cell ▸ hp) (.inl rfl) (hl.work ▸ hk)).ops) rfl (Nat.le_refl 1)

/-- A task that waits for a time that is yet to come has one turn before it, and its body. -/
theorem sleep_toils (h : w.Has i child) (hp : w.Rests child.cell) {due : Instant}
    (hd : w.now < due) (hk : (Stage.scheduled (V := V) due).Suits child.work) :
    Toils (1 + child.work.load (w.startsLeft child.cell)) (.turn (.child i)) w (.caller none)
      (w.parkChild i (.scheduled due)) := by
  obtain ⟨cur, hc, hl, he⟩ := h
  refine parkChild_toils hc (fun _ => (Op.sleep hc he (hl.cell ▸ hp) (.inr ⟨due, rfl, hd⟩)
    (hl.work ▸ hk)).ops) rfl (Nat.le_of_eq ?_)
  simp only [Child.burden, Stage.turnsLeft, if_pos hd, hl.work, hl.cell]

/-- What follows a piece of a run of a periodic child. -/
theorem afterFiring_toils {p : Progress V} (h : w.Has i child)
    (hw : child.work = .periodic pace runs) (hp : p.Fits w) (ht : w.TimedChild child)
    (hin : w.InTime) :
    ∃ (w₂ : World V) (after : AfterRun),
      (w.closeRun child.cell p).1.afterFiring i child pace (w.closeRun child.cell p).2 =
        (w₂, after) ∧
      match after with
      | .settled =>
        Toils (p.load + (w.startsLeft child.cell - 1) * Body.loads runs + 1) (.caller (some i)) w
          (.caller none) w₂
      | .again => Toils 0 (.caller (some i)) w (.turn (.child i)) w₂ ∧ w₂.Rests child.cell ∧
          w₂.startsLeft child.cell ≤ w.startsLeft child.cell - 1 := by
  have hk : child.work.kind = .periodic := by rw [hw]; rfl
  rw [closeRun_snd]
  cases p with
  | suspended on rest =>
    have hpause := pause_toils h rest hp
    rw [hw] at hpause
    exact ⟨_, _, rfl, hpause⟩
  | ended r =>
    cases r with
    | stopped => exact absurd rfl hp
    | panicked => exact ⟨_, _, rfl, (end_toils h (by simp) (by simp)).mono (Nat.zero_le _)⟩
    | failed cause =>
      refine ⟨_, _, rfl, ?_⟩
      have hreport : Toils 0 (.caller (some i)) w (.caller (some i)) (w.report _) :=
        .same (report_leads (.periodicFailed (w.nameOf child.executor)
          ((w.children[i]?.map (·.runs)).getD 0) cause)).ops (report_sameWork _ _)
      exact (hreport.trans (end_toils (w := w.report _) h (by simp) (by simp))).mono
        (Nat.zero_le _)
    | returned value =>
      have hsucceeds := succeed_toils h hw ht hin value
      have hrests := w.succeed_rests child pace value
      have has : (w.succeed child pace value).Has i child := h.of_children (succeed_frame ..).2.1
      unfold closeRun
      dsimp only
      rw [afterFiring_returned hw]
      split
      · rename_i next hn
        exact ⟨_, _, rfl, hsucceeds, hrests, succeed_starts hw ht hin hn value⟩
      · split
        · rename_i hs
          refine ⟨_, _, rfl, (hsucceeds.trans (.known (n := 0) fun hr => ?_)).mono (Nat.zero_le _)⟩
          exact giveUp_toils has (.inl (isSettled_of_isSignalled hr hs))
        · exact ⟨_, _, rfl, (hsucceeds.trans (strand_toils has hk hrests)).mono (by omega)⟩

theorem load_bodyForRun (runs : List (Body V)) (n : Nat) :
    (bodyForRun runs n).load ≤ Body.loads runs := by
  have hmem : ∀ body ∈ runs, body.load ≤ Body.loads runs := by
    intro body hb
    induction runs with
    | nil => cases hb
    | cons b rest ih =>
      rcases List.mem_cons.mp hb with rfl | hb
      · exact Nat.le_add_right _ _
      · exact Nat.le_trans (ih hb) (Nat.le_add_left _ _)
  unfold bodyForRun
  cases hn : runs[n]? with
  | some body => exact hmem body (List.mem_of_getElem? hn)
  | none =>
    cases hlast : runs.getLast? with
    | some body => exact hmem body (List.mem_of_getLast? hlast)
    | none => exact Nat.zero_le _

/-- After a piece of a run a periodic child has left to do what its body has, and the runs that can
still start. What it does in its next rounds is `rounds`. -/
theorem afterRun_toils {f : Focus} {w₀ : World V} {n m k : Nat} {p : Progress V}
    (hr : Reached f w₀) (hgoes : Toils n f w₀ (.caller (some i)) w) (h : w.Has i child)
    (hw : child.work = .periodic pace runs) (hp : p.Fits w) (ht : w₀.Timed) (hin : w₀.InTime)
    (hpaid : n + p.load + (w.startsLeft child.cell - 1) * Body.loads runs ≤ m)
    (rounds : ∀ w₁, Reached (.turn (.child i)) w₁ → w₁.Has i child → w₁.Rests child.cell →
      w₁.Timed → w₁.InTime → w₁.startsLeft child.cell ≤ w.startsLeft child.cell - 1 →
      Toils (1 + w₁.startsLeft child.cell * Body.loads runs) (.turn (.child i)) w₁ (.caller none)
          (w₁.periodicRounds i child pace runs k) ∧
        (w₁.periodicRounds i child pace runs k).Parked i) :
    ∃ (w₁ : World V) (after : AfterRun),
      (w.closeRun child.cell p).1.afterFiring i child pace (w.closeRun child.cell p).2 =
        (w₁, after) ∧
      match after with
      | .settled => Toils (1 + m) f w₀ (.caller none) w₁ ∧ w₁.Parked i
      | .again => Toils (1 + m) f w₀ (.caller none) (w₁.periodicRounds i child pace runs k) ∧
          (w₁.periodicRounds i child pace runs k).Parked i := by
  obtain ⟨hops, hclock, htimed, -⟩ := hgoes hr
  have hr₁ := hgoes.reached hr
  have hin₁ := hin.ops hr hops hclock
  have hchild : w.TimedChild child := by
    obtain ⟨cur, hc, hl, -⟩ := h
    exact (htimed ht i cur hc).of_later hl
  obtain ⟨w₁, after, hafter, hnext⟩ := afterFiring_toils h hw hp hchild hin₁
  refine ⟨w₁, after, hafter, ?_⟩
  cases after with
  | settled => exact ⟨(hgoes.trans hnext).mono (by omega), afterFiring_parked hafter⟩
  | again =>
    obtain ⟨hagain, hrests, hleft⟩ := hnext
    obtain ⟨hops₂, hclock₂, htimed₂, -⟩ := hagain hr₁
    have hr₂ := hagain.reached hr₁
    obtain ⟨hrest, hparked⟩ := rounds w₁ hr₂ (h.keeps hops₂ hr₂ rfl) hrests (htimed₂ (htimed ht))
      (hin₁.ops hr₁ hops₂ hclock₂) hleft
    have hfewer := Nat.mul_le_mul_right (Body.loads runs) hleft
    exact ⟨((hgoes.trans hagain).trans hrest).mono (by omega), hparked⟩

/-- A periodic child that looks for its due time starts a run for which it is late, and one for
which it is due now, at most; then it waits for a time that is yet to come, or ends. -/
theorem periodicRounds_toils (hw : child.work = .periodic pace runs) {rounds : Nat}
    (hr : Reached (.turn (.child i)) w) (h : w.Has i child) (hp : w.Rests child.cell)
    (ht : w.Timed) (hin : w.InTime) (hrounds : w.startsLeft child.cell < rounds) :
    Toils (1 + w.startsLeft child.cell * Body.loads runs) (.turn (.child i)) w (.caller none)
        (w.periodicRounds i child pace runs rounds) ∧
      (w.periodicRounds i child pace runs rounds).Parked i := by
  have hk : child.work.kind = .periodic := by rw [hw]; rfl
  induction rounds generalizing w with
  | zero => exact absurd hrounds (Nat.not_lt_zero _)
  | succ rounds ih =>
    unfold periodicRounds
    dsimp only
    split
    · rename_i hstop
      refine ⟨(Toils.known fun hr => giveUp_toils h ?_).mono (Nat.zero_le _), finish_parked _⟩
      rcases Bool.or_eq_true_iff.mp hstop with hm | hs
      · exact .inr (hk ▸ by simpa using hm)
      · exact .inl (isSettled_of_isSignalled hr hs)
    · rename_i hgo
      rw [Bool.or_eq_true_iff, not_or, Bool.not_eq_true, Bool.not_eq_true,
        Bool.not_eq_false'] at hgo
      split
      · rename_i hnow
        have hsleep := sleep_toils h hp hnow (Stage.suits_scheduled hk _)
        rw [hw] at hsleep
        refine ⟨hsleep, parkChild_parked fun t ht => ?_⟩
        obtain rfl := Stage.scheduled.inj ht
        exact hnow
      · rename_i hnow
        have hreport : Toils 0 (.turn (.child i)) w (.turn (.child i)) (w.report _) :=
          .same (report_leads (.firing (w.nameOf child.executor)
            ((w.children[i]?.map (·.runs)).getD 0 + 1) pace)).ops (report_sameWork _ _)
        have hdue : w.dueTime child ≤ w.now := by
          rw [dueTime_periodic hw]
          exact Nat.le_of_not_lt hnow
        obtain ⟨w₂, p, n, hrun, hstart, hfits, hload⟩ := startRun_toils child.name
          (bodyForRun runs ((w.children[i]?.map (·.runs)).getD 0)) (hreport.reached hr) h hp hgo.2
          (hk ▸ hgo.1) hdue
        have hgoes := (hreport.trans hstart).mono (Nat.le_of_eq (Nat.zero_add n))
        obtain ⟨hops, -, -, hstarts, -⟩ := hgoes hr
        have h₂ := h.keeps hops (hgoes.reached hr) rfl
        -- The run is paid for: it is one of those that the child could start.
        have hone : 1 ≤ w.startsLeft child.cell := startsLeft_pos (Nat.le_of_not_lt hnow)
        have hfewer : w₂.startsLeft child.cell ≤ w.startsLeft child.cell := by
          obtain ⟨cur, hc, hl, -⟩ := h
          exact hstarts _ (hl.cell ▸ hr.owned.cell_lt hc)
        have hpaid : n + p.load + (w₂.startsLeft child.cell - 1) * Body.loads runs ≤
            w.startsLeft child.cell * Body.loads runs := by
          calc n + p.load + (w₂.startsLeft child.cell - 1) * Body.loads runs
              ≤ Body.loads runs + (w₂.startsLeft child.cell - 1) * Body.loads runs :=
                Nat.add_le_add_right (Nat.le_trans hload (load_bodyForRun ..)) _
            _ = (w₂.startsLeft child.cell - 1 + 1) * Body.loads runs := by
                rw [Nat.succ_mul, Nat.add_comm]
            _ ≤ w.startsLeft child.cell * Body.loads runs := Nat.mul_le_mul_right _ (by omega)
        obtain ⟨w₃, after, hafter, hdone⟩ := afterRun_toils (k := rounds) hr hgoes h₂ hw hfits ht
          hin hpaid fun w₁ hr₁ h₁ hp₁ ht₁ hin₁ hleft => ih hr₁ h₁ hp₁ ht₁ hin₁ (by omega)
        rw [fire_eq hw, hrun, hafter]
        cases after <;> exact hdone

/-! ## The turn of a child -/

/-- A child that has its only run starts it. -/
theorem onlyRun_toils (body : Body V) (hr : Reached (.turn (.child i)) w)
    (hk : child.work.kind ≠ .periodic) (h : w.Has i child) (hp : w.Rests child.cell)
    (hs : w.isSignalled child.cell = false)
    (hm : w.mayRun child.executor child.work.kind = true) (hd : w.dueTime child ≤ w.now) :
    Toils (1 + body.load) (.turn (.child i)) w (.caller none)
      ((w.startRun child.cell child.name body).1.afterOnce i child
        (w.startRun child.cell child.name body).2) := by
  have hcount : w.countRun i child = w := by
    unfold countRun
    split
    · rename_i hw
      exact absurd (by rw [hw]; rfl) hk
    · rfl
  obtain ⟨w₂, p, n, hrun, hstart, hfits, hload⟩ := startRun_toils child.name body hr h hp hs hm hd
  rw [hcount] at hrun
  rw [hrun]
  have h₂ := h.keeps (hstart hr).ops (hstart.reached hr) rfl
  exact (hstart.trans (afterOnce_toils h₂ hk hfits)).mono (by omega)

/-- A delayed child whose time has come, and that was not cancelled, runs or is given up. -/
theorem delayedTurn_toils {due : Instant} {body : Body V} (hr : Reached (.turn (.child i)) w)
    (hw : child.work = .delayed due body) (h : w.Has i child) (hp : w.Rests child.cell) :
    Toils (1 + body.load) (.turn (.child i)) w (.caller none)
      (w.delayedTurn i child due body) := by
  have hk : child.work.kind = .delayed := by rw [hw]; rfl
  unfold delayedTurn
  split
  · rename_i hs
    exact (giveUp_toils h (.inl (isSettled_of_isSignalled hr hs))).mono (Nat.zero_le _)
  · rename_i hs
    split
    · rename_i hnow
      have hsleep := sleep_toils h hp hnow (by rw [hw]; rfl)
      rw [hw] at hsleep
      exact hsleep
    · rename_i hnow
      split
      · rename_i hm
        exact (giveUp_toils h (.inr (hk ▸ by simpa using hm))).mono (Nat.zero_le _)
      · rename_i hm
        refine onlyRun_toils body hr (by simp [hk]) h hp (by simpa using hs)
          (hk ▸ by simpa using hm) ?_
        unfold dueTime
        rw [hw]
        exact Nat.le_of_not_lt hnow

/-- A child that runs at once does so, unless it was cancelled. -/
theorem immediateTurn_toils (body : Body V) (hr : Reached (.turn (.child i)) w)
    (hk : child.work.kind = .immediate) (h : w.Has i child) (hp : w.Rests child.cell) :
    Toils (1 + body.load) (.turn (.child i)) w (.caller none)
      ((w.startRun child.cell child.name body).1.afterOnce i child
        (w.startRun child.cell child.name body).2) := by
  cases hs : w.isSignalled child.cell with
  | true =>
    rw [startRun_of_signalled hs]
    exact (giveUp_toils h (.inl (isSettled_of_isSignalled hr hs))).mono (Nat.zero_le _)
  | false =>
    have hlt : child.executor < w.executors.length := by
      obtain ⟨cur, hc, hl, -⟩ := h
      exact hl.executor ▸ hr.owned.executor_lt hc
    refine onlyRun_toils body hr (by simp [hk]) h hp hs (hk ▸ mayRun_of_immediate hlt) ?_
    unfold dueTime
    cases hw : child.work <;> first | exact Nat.zero_le _ | simp [hw, Work.kind] at hk

theorem firstTurn_toils (hr : Reached (.turn (.child i)) w) (h : w.Has i child)
    (hp : w.Rests child.cell) (ht : w.Timed) (hin : w.InTime) :
    Toils (1 + child.work.load (w.startsLeft child.cell)) (.turn (.child i)) w (.caller none)
        (w.firstTurn i child) ∧ (w.firstTurn i child).Parked i := by
  have hreport : Toils 0 (.turn (.child i)) w (.turn (.child i)) (w.report _) :=
    .same (report_leads (.childStarted (w.nameOf child.executor) child.id child.work.kind)).ops
      (report_sameWork _ _)
  have hr' := hreport.reached hr
  unfold firstTurn
  dsimp only
  have begins : ∀ {w' : World V}, Toils (1 + child.work.load (w.startsLeft child.cell))
      (.turn (.child i)) _ (.caller none) w' → Toils (1 + child.work.load (w.startsLeft child.cell))
      (.turn (.child i)) w (.caller none) w' :=
    fun h => (hreport.trans h).mono (Nat.le_of_eq (Nat.zero_add _))
  split
  case h_4 due body hw =>
    refine ⟨begins ?_, delayedTurn_parked _ _⟩
    exact (delayedTurn_toils hr' hw h hp).mono (by rw [hw]; exact Nat.le_refl _)
  case h_5 pace runs hw =>
    obtain ⟨hrounds, hparked⟩ := periodicRounds_toils hw hr' h hp ht hin
      (Nat.lt_of_le_of_lt (startsLeft_le _ _) (show 2 < turnRounds by decide))
    exact ⟨begins (hrounds.mono (by rw [hw]; exact Nat.le_refl _)), hparked⟩
  all_goals
    rename_i body hw
    refine ⟨begins ?_, afterOnce_parked _⟩
    refine (immediateTurn_toils body hr' (by rw [hw]; rfl) h hp).mono ?_
    rw [hw]
    exact Nat.le_refl _

/-- A body goes on when what it waited for has come. -/
theorem resumedTurn_toils {on : Wait} {rest : List (Step V)} (hr : Reached (.turn (.child i)) w)
    (hc : w.children[i]? = some child) (he : child.stage = .suspended on rest)
    (hs : w.isSignalled child.cell = false) (hon : ¬ on.Pending w) (ht : w.Timed)
    (hin : w.InTime) :
    Toils (1 + Step.loads rest + child.work.loadAfter (w.startsLeft child.cell))
        (.turn (.child i)) w (.caller none) (w.suspendedTurn i child on rest) ∧
      (w.suspendedTurn i child on rest).Parked i := by
  have h : w.Has i child := ⟨child, hc, .refl child, by rw [Child.hasEnded, he]⟩
  have hresume := Op.resume hc he hs
  have hpolled : Toils 0 (.turn (.child i)) w (.caller (some i))
      (w.record (.polled child.cell)) :=
    .same (fun _ => hresume.ops) (.of_perm rfl rfl rfl rfl (fun _ => rfl) (.refl _))
  have hr' := hr.op hresume
  obtain ⟨-, hfits⟩ := resumeSteps_leads child.name rest hr' (hr.sound.waits hc he)
  have hon' : ¬ on.Pending (w.record (.polled child.cell)) := by cases on <;> exact hon
  obtain ⟨n, hn, hload⟩ := resumeSteps_toils child.name hon' rest (b := some i)
  have hgoes := hpolled.trans hn
  obtain ⟨hops, -, -, hstarts, -⟩ := hgoes hr
  have h₂ := h.keeps hops (hgoes.reached hr) rfl
  unfold suspendedTurn resumeRun closeTurn
  rw [if_neg (by simp [hs])]
  dsimp only
  split
  · rename_i pace runs hw
    have hfewer := Nat.mul_le_mul_right (Body.loads runs)
      (Nat.sub_le_sub_right (hstarts child.cell (hr.owned.cell_lt hc)) 1)
    obtain ⟨w₃, after, hafter, hdone⟩ := afterRun_toils (k := turnRounds)
      (m := Step.loads rest + (w.startsLeft child.cell - 1) * Body.loads runs) hr hgoes h₂ hw hfits
      ht hin (by omega) fun w₁ hr₁ h₁ hp₁ ht₁ hin₁ _ => periodicRounds_toils hw hr₁ h₁ hp₁ ht₁ hin₁
        (Nat.lt_of_le_of_lt (w₁.startsLeft_le _) (show 2 < turnRounds by decide))
    rw [hafter, hw]
    show Toils (1 + Step.loads rest + (w.startsLeft child.cell - 1) * Body.loads runs) _ _ _ _ ∧ _
    rw [Nat.add_assoc]
    cases after <;> exact hdone
  · rename_i hw
    have hk : child.work.kind ≠ .periodic := by
      cases hwork : child.work with
      | periodic pace runs => exact absurd hwork (hw pace runs)
      | _ => simp [Work.kind]
    exact ⟨(hgoes.trans (afterOnce_toils h₂ hk hfits)).mono (by omega), afterOnce_parked _⟩

/-- A body whose task was cancelled while it was suspended is given up. -/
theorem dropRun_toils {on : Wait} {rest : List (Step V)} (hc : w.children[i]? = some child)
    (he : child.stage = .suspended on rest) (hs : w.isSignalled child.cell = true) :
    Toils 0 (.turn (.child i)) w (.caller none) (w.suspendedTurn i child on rest) ∧
      (w.suspendedTurn i child on rest).Parked i := by
  have hleads := dropRun_leads child.name hc he hs
  rw [suspendedTurn_of_signalled hs]
  refine ⟨?_, finish_parked _⟩
  exact finish_toils (w := (w.note child.name .dropped).endRun child.cell) hc .stopped hleads.ops
    rfl rfl rfl rfl rfl (fun _ => markOf?_modify (c := child.cell) rfl fun _ => rfl) rfl

/-- A task that was cancelled while it waited gives up. -/
theorem cancelled_toils (hr : Reached (.turn (.child i)) w) (h : w.Has i child)
    (hs : w.isSignalled child.cell = true) :
    Toils 0 (.turn (.child i)) w (.caller none) (w.giveUp i child) ∧ (w.giveUp i child).Parked i :=
  ⟨giveUp_toils h (.inl (isSettled_of_isSignalled hr hs)), finish_parked _⟩

/-- A child that has waited for its due time has a turn less left after the next one. -/
theorem scheduledTurn_toils {due : Instant} (hr : Reached (.turn (.child i)) w)
    (hc : w.children[i]? = some child) (hst : child.stage = .scheduled due) (h : w.Has i child)
    (hp : w.Rests child.cell) (hsuits : (Stage.scheduled due).Suits child.work)
    (hcome : w.isSignalled child.cell = false → ¬ w.now < due) (ht : w.Timed) (hin : w.InTime) :
    ∃ n < child.burden w.now (w.startsLeft child.cell),
      Toils n (.turn (.child i)) w (.caller none) (w.childTurn i) ∧ (w.childTurn i).Parked i := by
  have hpos : 0 < (Stage.scheduled (V := V) due).turnsLeft w.now := by
    show 0 < if w.now < due then 1 else 2
    split <;> decide
  have htwo : w.isSignalled child.cell = false →
      (Stage.scheduled (V := V) due).turnsLeft w.now = 2 := fun hs => if_neg (hcome hs)
  unfold childTurn Child.burden
  rw [hc]
  dsimp only
  rw [hst]
  cases hw : child.work with
  | delayed due' body =>
    rw [hw] at hsuits
    obtain rfl : due = due' := hsuits
    cases hs : w.isSignalled child.cell with
    | true =>
      refine ⟨0, Nat.lt_of_lt_of_le hpos (Nat.le_add_right _ _), ?_⟩
      dsimp only
      unfold delayedTurn
      rw [if_pos hs]
      exact cancelled_toils hr h hs
    | false =>
      refine ⟨_, ?_, delayedTurn_toils hr hw h hp, delayedTurn_parked _ _⟩
      rw [htwo hs]
      show 1 + body.load < 2 + body.load
      omega
  | periodic pace runs =>
    dsimp only
    unfold periodicTurn
    cases hs : w.isSignalled child.cell with
    | true => exact ⟨0, Nat.lt_of_lt_of_le hpos (Nat.le_add_right _ _), cancelled_toils hr h hs⟩
    | false =>
      rw [if_neg (by simp), if_neg (hcome hs)]
      refine ⟨_, ?_, periodicRounds_toils hw hr h hp ht hin
        (Nat.lt_of_le_of_lt (w.startsLeft_le _) (show 2 < turnRounds by decide))⟩
      rw [htwo hs]
      exact Nat.add_lt_add_right (by decide) _
  | _ => rw [hw] at hsuits; cases hsuits

/-- A child whose body waited has a turn less left after the next one. -/
theorem wakenedTurn_toils {on : Wait} {rest : List (Step V)} (hr : Reached (.turn (.child i)) w)
    (hc : w.children[i]? = some child) (hst : child.stage = .suspended on rest)
    (hcome : w.isSignalled child.cell = false → ¬ on.Pending w) (ht : w.Timed) (hin : w.InTime) :
    ∃ n < child.burden w.now (w.startsLeft child.cell),
      Toils n (.turn (.child i)) w (.caller none) (w.suspendedTurn i child on rest) ∧
        (w.suspendedTurn i child on rest).Parked i := by
  unfold Child.burden
  rw [hst]
  dsimp only
  cases hs : w.isSignalled child.cell with
  | true =>
    refine ⟨0, ?_, dropRun_toils hc hst hs⟩
    cases on with
    | time t => dsimp only [Stage.turnsLeft]; split <;> omega
    | _ => dsimp only [Stage.turnsLeft]; omega
  | false =>
    have hon := hcome hs
    refine ⟨_, ?_, resumedTurn_toils hr hc hst hs hon ht hin⟩
    cases on with
    | time t =>
      have hdue : ¬ w.now < t := hon
      simp only [Stage.turnsLeft, if_neg hdue]
      omega
    | cell c joined =>
      simp only [Stage.turnsLeft]
      omega
    | forever => exact absurd trivial hon

/-- A child that has a turn, and is not to wait any longer, has less to do after it, and if it waits
for a time then, that is yet to come. -/
theorem childTurn_toils (hr : Reached (.turn (.child i)) w) (hawake : ¬ w.Sleeps (.child i))
    (ht : w.Timed) (hin : w.InTime) :
    ∃ n < w.burdenOf (.child i),
      Toils n (.turn (.child i)) w (.caller none) (w.childTurn i) ∧ (w.childTurn i).Parked i := by
  have hknown := hr.placed.known (.child i) List.mem_cons_self
  obtain ⟨child, hc, hended⟩ := live_child.mp (hknown.resolve_right (by simp))
  have h : w.Has i child := ⟨child, hc, .refl child, hended⟩
  have hburden : w.burdenOf (.child i) = child.burden w.now (w.startsLeft child.cell) := by
    rw [burdenOf, hc]
    rfl
  -- A child that was not cancelled does not wait for what is yet to come.
  have hgoes : w.isSignalled child.cell = false → ¬ child.stage.Sleeps w := fun hs hsleeps =>
    hawake ⟨child, hc, hs, hsleeps⟩
  have rests : (∀ on rest, child.stage ≠ .suspended on rest) → w.Rests child.cell := by
    intro hs hrun
    obtain ⟨on, rest, hst⟩ := hr.suspended_of_running hc hended (by simp [Focus.body?]) hrun
    exact hs on rest hst
  rw [hburden]
  cases hst : child.stage with
  | created =>
    have hturn : w.childTurn i = w.firstTurn i child := by simp only [childTurn, hc, hst]
    rw [hturn]
    refine ⟨_, ?_, firstTurn_toils hr h (rests (by simp [hst])) ht hin⟩
    simp only [Child.burden, hst, Stage.turnsLeft]
    omega
  | scheduled due =>
    have hsuits := (hr.tended.tends hc (List.getElem?_eq_getElem (hr.owned.cell_lt hc))).suits
    rw [hst] at hsuits hgoes
    exact scheduledTurn_toils hr hc hst h (rests (by simp [hst])) hsuits hgoes ht hin
  | suspended on rest =>
    have hturn : w.childTurn i = w.suspendedTurn i child on rest := by
      simp only [childTurn, hc, hst]
    rw [hst] at hgoes
    rw [hturn]
    exact wakenedTurn_toils hr hc hst hgoes ht hin
  | stranded =>
    rw [hst] at hgoes
    cases hs : w.isSignalled child.cell with
    | true =>
      have hturn : w.childTurn i = w.giveUp i child := by
        simp only [childTurn, hc, hst, hs, if_true]
      rw [hturn]
      exact ⟨0, by simp [Child.burden, hst, Stage.turnsLeft], cancelled_toils hr h hs⟩
    | false => exact absurd trivial (hgoes hs)
  | ended =>
    rw [Child.hasEnded, hst] at hended
    cases hended

end World

end TimedTasks

import TimedTasks.Proofs.Cancellation
import TimedTasks.Proofs.Halt
import TimedTasks.Proofs.LastRun
/-!
Which tasks a shutdown stops. It settles exactly the futures of the delayed and periodic tasks that
the settings have it stop, that were unsettled and not in a run; each of them is cancelled before
the call returns. A periodic task that is in a run is stopped too, though only after it.
-/

namespace TimedTasks

open World

variable {V : Type} {w : World V} {e i c : Nat} {child : Child V} {x : Executor} {s : Settings}

namespace World

theorem stopsAtShutdown_iff {kind : ChildKind} :
    stopsAtShutdown s kind = true ↔ kind = .delayed ∧ s.keepDelayed = false ∨
      kind = .periodic ∧ s.keepPeriodic = false := by
  cases kind <;> simp [stopsAtShutdown]

/-- What a shutdown does about one child changes no outcome but that of a task that it stops and
that could be cancelled. -/
theorem seeTo_outcomeOf (w : World V) (s : Settings) (i c : Nat) :
    (w.seeTo s i).outcomeOf c = w.outcomeOf c ∨
      w.cancellable c false = true ∧ (w.seeTo s i).outcomeOf c = some .cancelled ∧
        ∃ child, w.children[i]? = some child ∧ child.cell = c ∧
          stopsAtShutdown s child.work.kind = true := by
  unfold seeTo
  cases hc : w.children[i]? with
  | none => exact .inl rfl
  | some child =>
    dsimp only
    split
    · rename_i hs
      rw [cancel_snd]
      cases hg : w.cancellable child.cell false with
      | false => exact .inl (by rw [cancel_refused hg]; rfl)
      | true =>
        obtain ⟨hn, ho⟩ := cancel_granted_iff.mp ((cancel_snd ..).trans hg)
        by_cases hcell : child.cell = c
        · exact .inr ⟨hcell ▸ hg, hcell ▸ ho, child, rfl, hcell, hs⟩
        · refine .inl ?_
          show ((w.cancel child.cell false).1.cells[c]?).bind (·.outcome) = _
          rw [cancel_cells, List.getElem?_modify_ne _ _ hcell]
          rfl
    · exact .inl rfl

theorem applyPolicies_outcomeOf (w : World V) (s : Settings) (is : List Nat) (c : Nat) :
    (w.applyPolicies s is).outcomeOf c = w.outcomeOf c ∨
      w.cancellable c false = true ∧ (w.applyPolicies s is).outcomeOf c = some .cancelled ∧
        ∃ i ∈ is, ∃ child, w.children[i]? = some child ∧ child.cell = c ∧
          stopsAtShutdown s child.work.kind = true := by
  induction is generalizing w with
  | nil => exact .inl rfl
  | cons i is ih =>
    rw [applyPolicies_cons]
    rcases ih (w.seeTo s i) with heq | ⟨hg, ho, k, hk, child, hc, hcell, hs⟩
    · rw [heq]
      refine (w.seeTo_outcomeOf s i c).imp id fun ⟨hg, ho, child, hc, hcell, hs⟩ => ?_
      exact ⟨hg, ho, i, List.mem_cons_self, child, hc, hcell, hs⟩
    · rw [(w.seeTo_frame s i).1] at hc
      refine .inr ⟨?_, ho, k, List.mem_cons_of_mem _ hk, child, hc, hcell, hs⟩
      -- What can be cancelled later could be before.
      by_contra hn
      rw [seeTo_refuses (Bool.eq_false_iff.mpr hn)] at hg
      cases hg

theorem beginDrain_cells (w : World V) (e : Nat) : (w.beginDrain e).cells = w.cells := by
  unfold beginDrain
  dsimp only
  split <;> rfl

theorem shutdown_outcomeOf (hx : w.executors[e]? = some x) (hrun : w.isRunning e = true)
    (c : Nat) :
    (w.shutdown e).outcomeOf c = w.outcomeOf c ∨
      w.cancellable c false = true ∧ (w.shutdown e).outcomeOf c = some .cancelled ∧
        ∃ i ∈ x.registry, ∃ child, w.children[i]? = some child ∧ child.cell = c ∧
          stopsAtShutdown x.settings child.work.kind = true := by
  have hcells : (w.shutdown e).outcomeOf c =
      ((w.shuttingDown e).applyPolicies x.settings x.registry).outcomeOf c := by
    rw [shutdown_of_running hx hrun, outcomeOf, beginDrain_cells]
    rfl
  rw [hcells]
  exact (w.shuttingDown e).applyPolicies_outcomeOf x.settings x.registry c

theorem shutdown_children (hrun : w.isRunning e = true) : (w.shutdown e).children = w.children := by
  obtain ⟨x, hx, -⟩ := isRunning_iff.mp hrun
  rw [shutdown_of_running hx hrun, beginDrain_children, (applyPolicies_frame ..).1]
  rfl

/-! ## The log -/

/-- The run with another log. -/
def withLog (w : World V) (l : List (Entry V)) : World V := { w with log := l }

theorem cancel_withLog (w : World V) (l : List (Entry V)) (c : Nat) (interrupt : Bool) :
    (w.withLog l).cancel c interrupt =
      ((w.cancel c interrupt).1.withLog l, (w.cancel c interrupt).2) := by
  have hsettle (w : World V) (o : Outcome V) :
      (w.withLog l).settle c o = (w.settle c o).withLog l := by
    have hs : (w.withLog l).isSettled c = w.isSettled c := rfl
    unfold settle
    rw [hs]
    split <;> rfl
  have hsignal (w : World V) : (w.withLog l).signal c = (w.signal c).withLog l := by
    have hs : (w.withLog l).isSignalled c = w.isSignalled c := rfl
    unfold signal
    rw [hs]
    split <;> rfl
  have hg : (w.withLog l).cancellable c interrupt = w.cancellable c interrupt := rfl
  unfold cancel
  rw [hg]
  split
  · have hclose : (w.withLog l).modifyCell c (fun cell => { cell with phase := .closed }) =
      (w.modifyCell c fun cell => { cell with phase := .closed }).withLog l := rfl
    dsimp only
    rw [hclose, hsettle, hsignal]
    rfl
  · rfl

theorem applyPolicies_withLog (w : World V) (l : List (Entry V)) (s : Settings) (is : List Nat) :
    (w.withLog l).applyPolicies s is = (w.applyPolicies s is).withLog l := by
  induction is generalizing w with
  | nil => rfl
  | cons i is ih =>
    have hsee : (w.withLog l).seeTo s i = (w.seeTo s i).withLog l := by
      have hc : (w.withLog l).children[i]? = w.children[i]? := rfl
      unfold seeTo
      rw [hc]
      cases w.children[i]? with
      | none => rfl
      | some child =>
        dsimp only
        rw [cancel_withLog]
        split
        · dsimp only
          split <;> rfl
        · rfl
    rw [applyPolicies_cons, applyPolicies_cons, hsee, ih]

/-- A shutdown neither reads the log nor adds to it. -/
theorem shutdown_withLog {w : World V} {e : Nat} (hrun : w.isRunning e = true)
    (l : List (Entry V)) : (w.withLog l).shutdown e = (w.shutdown e).withLog l := by
  obtain ⟨x, hx, -⟩ := isRunning_iff.mp hrun
  have hx' : (w.withLog l).executors[e]? = some x := hx
  have hrun' : (w.withLog l).isRunning e = true := hrun
  have hbegin : (w.withLog l).shuttingDown e = (w.shuttingDown e).withLog l := rfl
  have hend (w : World V) : (w.withLog l).beginDrain e = (w.beginDrain e).withLog l := by
    unfold beginDrain
    dsimp only
    split <;> rename_i hd
    · have hd : (w.modifyExecutor e fun x => { x with closed := true }).isDrained e = true := hd
      rw [if_pos hd]
      rfl
    · have hd : ¬ (w.modifyExecutor e fun x => { x with closed := true }).isDrained e = true := hd
      rw [if_neg hd]
      rfl
  rw [shutdown_of_running hx hrun, shutdown_of_running hx' hrun', hbegin, applyPolicies_withLog,
    hend]

/-! ## The tasks that are stopped -/

/-- Whether a shutdown of an executor stops a child: one that is unsettled and that its settings
have it stop, and, unless it is periodic, one that is not in a run. -/
structure Stops (w : World V) (e : Nat) (child : Child V) : Prop where
  executor : child.executor = e
  unsettled : w.outcomeOf child.cell = none
  stops : ∃ x, w.executors[e]? = some x ∧ stopsAtShutdown x.settings child.work.kind = true
  idle : child.work.kind = .periodic ∨ w.underWay child.cell = false

def StoppedChild (w : World V) (e i : Nat) : Prop :=
  ∃ child, w.children[i]? = some child ∧ w.Stops e child

def StoppedCell (w : World V) (e c : Nat) : Prop :=
  ∃ (i : Nat) (child : Child V), w.children[i]? = some child ∧ w.Stops e child ∧ child.cell = c

theorem Stops.alone (h : w.Stops e child) : child.work.batch? = none := by
  obtain ⟨x, -, hs⟩ := h.stops
  cases hw : child.work with
  | oneOfAll b body => rw [hw] at hs; cases hs
  | oneOfAny b body => rw [hw] at hs; cases hs
  | _ => rfl

end World

theorem Reached.stoppedChild_iff {f : Focus} (hr : Reached f w)
    (hc : w.children[i]? = some child) : w.StoppedChild e i ↔ w.StoppedCell e child.cell := by
  constructor
  · rintro ⟨x, hx, hs⟩
    obtain rfl := Option.some.inj (hc.symm.trans hx)
    exact ⟨i, _, hc, hs, rfl⟩
  · rintro ⟨k, x, hx, hs, hcell⟩
    obtain rfl := hr.owned.apart hx hc hcell
    exact ⟨x, hx, hs⟩

/-- A task that can be cancelled without the interruption of a run is in none. -/
theorem Reached.underWay_of_cancellable {f : Focus} (hr : Reached f w)
    (hc : w.children[i]? = some child) (hg : w.cancellable child.cell false = true) :
    w.underWay child.cell = false := by
  cases hway : w.underWay child.cell with
  | false => rfl
  | true =>
    have hrefused := hr.cancel_during_run hc hway
    have := (cancel_snd w child.cell false).symm.trans (congrArg Prod.snd hrefused)
    rw [hg] at this
    cases this

/-- The outcomes that a shutdown changes are those of the delayed and of the periodic tasks that are
unsettled, not in a run, and stopped by the settings; and these tasks are cancelled. -/
theorem Reached.cancelled_by_shutdown {b : Option Nat} (hr : Reached (.caller b) w)
    (hx : w.executors[e]? = some x) (hrun : w.isRunning e = true) (c : Nat) :
    ((w.shutdown e).outcomeOf c ≠ w.outcomeOf c ↔
      ∃ (i : Nat) (child : Child V), w.children[i]? = some child ∧ child.executor = e ∧
        child.cell = c ∧ w.outcomeOf c = none ∧ w.underWay c = false ∧
        (child.work.kind = .delayed ∧ x.settings.keepDelayed = false ∨
          child.work.kind = .periodic ∧ x.settings.keepPeriodic = false)) ∧
    ((w.shutdown e).outcomeOf c ≠ w.outcomeOf c →
      (w.shutdown e).outcomeOf c = some .cancelled) := by
  have hcases := shutdown_outcomeOf hx hrun c
  refine ⟨⟨fun hne => ?_, ?_⟩, fun hne => (hcases.resolve_left hne).2.1⟩
  · obtain ⟨hg, -, i, hi, child, hc, rfl, hs⟩ := hcases.resolve_left hne
    obtain ⟨y, hy, he, -⟩ := ((hr.audited e x hx).registry i).mp hi
    obtain rfl := Option.some.inj (hc.symm.trans hy)
    exact ⟨i, _, hc, he, rfl, (cancel_granted_iff.mp ((cancel_snd ..).trans hg)).1,
      hr.underWay_of_cancellable hc hg, stopsAtShutdown_iff.mp hs⟩
  · rintro ⟨i, child, hc, he, rfl, ho, hway, hs⟩ heq
    have hsettled := (hr.stopped_by_shutdown hx hrun hc he (stopsAtShutdown_iff.mpr hs)).1 hway
    rw [isSettled, heq, ho] at hsettled
    cases hsettled

end TimedTasks

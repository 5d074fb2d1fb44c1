import TimedTasks.Proofs.Journey
import TimedTasks.Proofs.Standstill
/-!
Paired runs come to rest. While a mark can hold how far the clock is past the making of each
executor, a run comes to rest wherever a step lets tasks run; and so does the run beside it, whose
clock reads the same and whose executors were made at the same times.
-/

namespace TimedTasks

open World

variable {V : Type} {σ : Pairing} {κ : Nat → Nat → Prop} {w v : World V} {t target : Duration}
  {n m : Nat}

/-! ## One run -/

namespace Played

theorem rests (h : Played w) (hin : w.quiesce.InTime) : w.quiesce.ready = [] :=
  (h.comes_to_rest (hin.before (quiesce_leads.ops h.reached).later)).1

theorem inTime_move (h : Played w) (ht : w.clock.elapsed ≤ t) (hin : (w.moveTo t).quiesce.InTime) :
    (w.moveTo t).InTime :=
  hin.before (quiesce_leads.ops (h.move ht).reached).later

/-- A run that is in time when it has passed through its stops was so at each of them. -/
theorem inTime_stop (h : Played w) (hle : t ≤ target) (ht : w.clock.elapsed ≤ t)
    (hin : ((w.moveTo t).quiesce.passTo target n).InTime) : (w.moveTo t).quiesce.InTime := by
  have hq := (h.move ht).quiesce
  refine hin.before (passTo_way n hq.reached ?_).ops.later
  rw [(quiesce_leads (h.move ht).reached).clock]
  exact hle

theorem calmPass (h : Played w) (ht : w.clock.elapsed ≤ target)
    (hin : (w.passTo target n).InTime) : w.CalmPass target n := by
  induction n generalizing w with
  | zero => exact (h.move ht).rests hin
  | succ n ih =>
    rw [passTo_succ] at hin
    rw [CalmPass]
    cases hs : w.stopBefore? target with
    | none =>
      rw [hs] at hin
      exact (h.move ht).rests hin
    | some t =>
      rw [hs] at hin
      obtain ⟨hlt, hle, -, -⟩ := stopBefore?_eq_some hs
      have hnow : w.clock.elapsed ≤ t := Nat.le_of_lt hlt
      have hstop := h.inTime_stop hle hnow hin
      refine ⟨(h.move hnow).rests hstop, ih (h.move hnow).quiesce ?_ hin⟩
      rw [(quiesce_leads (h.move hnow).reached).clock]
      exact hle

theorem calmTo (h : Played w) (ht : w.clock.elapsed ≤ target) (hin : (w.goTo target).InTime) :
    w.CalmTo target := by
  unfold World.goTo at hin
  unfold CalmTo
  split
  · rename_i hjumps
    rw [if_pos hjumps] at hin
    exact (h.move ht).rests hin
  · rename_i hjumps
    rw [if_neg hjumps] at hin
    exact h.calmPass ht hin

theorem calmStep (h : Played w) (s : ScenarioStep V) (hin : (w.take s).1.InTime) :
    w.CalmStep s := by
  have hrest := (h.comes_to_rest (InTime.before hin (take_way s h.reached).ops.later)).1
  cases s with
  | call c => trivial
  | settle => exact hrest
  | setElapsed t =>
    refine ⟨hrest, fun hlt => h.quiesce.calmTo (Nat.le_of_lt hlt) ?_⟩
    have hin : (w.setElapsed t).InTime := hin
    unfold World.setElapsed at hin
    dsimp only at hin
    rwa [if_pos hlt] at hin
  | advance d =>
    refine ⟨hrest, fun target hadd => ?_⟩
    have hin : (w.advance d).1.InTime := hin
    unfold World.advance at hin
    dsimp only at hin
    rw [hadd] at hin
    dsimp only at hin
    split
    · rename_i hjumps
      rw [if_pos hjumps] at hin
      exact (h.quiesce.report _).calmTo (Duration.le_of_add? hadd) hin
    · rename_i hjumps
      rw [if_neg hjumps] at hin
      exact h.quiesce.calmTo (Duration.le_of_add? hadd) hin

end Played

/-! ## The run beside it -/

/-- A run beside one that is in time is so too. -/
theorem World.Paired.inTime (h : Paired σ κ w v) (hin : w.InTime) : v.InTime := by
  intro y hy
  obtain ⟨e, he⟩ := List.mem_iff_getElem?.mp hy
  obtain ⟨x, hx, hxy⟩ := (h.executors.flip (fun _ _ => eq_comm)
    fun _ _ _ _ => Pairing.Executors.flip).get rfl he
  have h₁ := hin x (List.mem_of_getElem? hx)
  rw [h.now_eq, ← hxy.origin] at h₁
  exact h₁

namespace Abreast

theorem rests_right (h : Abreast σ w v) (hv : Played v) (hin : w.InTime) : v.quiesce.ready = [] :=
  (hv.comes_to_rest (h.paired.inTime hin)).1

/-- A movement of the clock up to which nothing is due does not show in where the run goes on to. -/
theorem inTime_atReading (hw : Played w) (hidle : w.Idle t) (hnow : w.clock.elapsed ≤ t)
    (ht : t ≤ target) (hin : (w.passTo target n).InTime) : (w.atReading t).InTime := by
  have hplayed := hw.move hnow
  rw [moveTo_of_idle hidle] at hplayed
  rw [← passTo_atReading hidle hnow] at hin
  exact hin.before (passTo_way n hplayed.reached ht).ops.later

theorem calmPass_of_last (hs : w.stopBefore? target = none)
    (hr : (w.moveTo target).quiesce.ready = []) (n : Nat) : w.CalmPass target n := by
  cases n with
  | zero => exact hr
  | succ n =>
    rw [CalmPass, hs]
    exact hr

/-- The run beside one that is in time comes to rest at each of its own stops. -/
theorem calmPass_right (h : Abreast σ w v) (hw : Played w) (hv : Played v)
    (ht : w.clock.elapsed ≤ target) (hwr : w.ready = []) (hvr : v.ready = [])
    (hn : Enough w target n) (hm : Enough v target m) (hin : (w.passTo target n).InTime) :
    v.CalmPass target m := by
  induction hk : n + m using Nat.strongRecOn generalizing w v n m with
  | ind k ih =>
    have hclock := h.paired.clock
    rcases stops_cases w v target with ⟨hs, hs'⟩ | ⟨t, hs, hlater⟩ | ⟨t, hs', hlater⟩ | ⟨t, hs, hs'⟩
    · rw [passTo_last hs] at hin
      exact calmPass_of_last hs' ((h.moveTo ht).rests_right (hv.move (hclock ▸ ht))
        (hw.inTime_move ht hin)) m
    -- The run that is in time stops, and nothing is due in the other one.
    · obtain ⟨hlt, hle, -, -⟩ := stopBefore?_eq_some hs
      have hnow : w.clock.elapsed ≤ t := Nat.le_of_lt hlt
      have hvnow : v.clock.elapsed ≤ t := hclock ▸ hnow
      obtain ⟨n, rfl, hn'⟩ := enough_stop hn hs
      rw [passTo_succ, hs] at hin
      have hidle := idle_of_stop h.right hs hlater
      have hrest := (hw.move hnow).rests (hw.inTime_stop hle hnow hin)
      have hvp := hv.move hvnow
      rw [moveTo_of_idle hidle] at hvp
      have hreads := clock_moveTo_quiesce h.left hnow
      refine (calmPass_atReading hidle hvnow target m).mp (ih (n + m) (by omega)
        (h.stop_left hnow hvr hidle hrest) (hw.move hnow).quiesce hvp ?_ hrest hvr
        (hn' _ ?_) ?_ hin rfl)
      · rw [hreads]; exact hle
      · rw [now, hreads]
      · exact Nat.le_trans hm (Nat.add_le_add_right (Nat.div_le_div_right hvnow) m)
    -- The run beside it stops, and nothing is due in the one that is in time.
    · obtain ⟨hlt, hle, -, -⟩ := stopBefore?_eq_some hs'
      have hvnow : v.clock.elapsed ≤ t := Nat.le_of_lt hlt
      have hnow : w.clock.elapsed ≤ t := hclock ▸ hvnow
      obtain ⟨m, rfl, hm'⟩ := enough_stop hm hs'
      have hidle := idle_of_stop h.left hs' hlater
      have hwp := hw.move hnow
      have hmoved := h.moveTo hnow
      rw [moveTo_of_idle hidle] at hwp hmoved
      have hrest := hmoved.rests_right (hv.move hvnow)
        (inTime_atReading hw hidle hnow hle hin)
      have hreads := clock_moveTo_quiesce h.right hvnow
      rw [CalmPass, hs']
      refine ⟨hrest, ih (n + m) (by omega) (h.flip.stop_left hvnow hwr hidle hrest).flip hwp
        (hv.move hvnow).quiesce hle hwr hrest ?_ (hm' _ ?_) ?_ rfl⟩
      · exact Nat.le_trans hn (Nat.add_le_add_right (Nat.div_le_div_right hnow) n)
      · rw [now, hreads]
      · rw [passTo_atReading hidle hnow]
        exact hin
    · obtain ⟨hlt, hle, -, -⟩ := stopBefore?_eq_some hs
      have hnow : w.clock.elapsed ≤ t := Nat.le_of_lt hlt
      have hvnow : v.clock.elapsed ≤ t := hclock ▸ hnow
      obtain ⟨n, rfl, hn'⟩ := enough_stop hn hs
      obtain ⟨m, rfl, hm'⟩ := enough_stop hm hs'
      rw [passTo_succ, hs] at hin
      have hstop := hw.inTime_stop hle hnow hin
      have hrest := (hw.move hnow).rests hstop
      have hrest' := (h.moveTo hnow).rests_right (hv.move hvnow) (hw.inTime_move hnow hstop)
      have hreads := clock_moveTo_quiesce h.left hnow
      have hreads' := clock_moveTo_quiesce h.right hvnow
      rw [CalmPass, hs']
      refine ⟨hrest', ih (n + m) (by omega) ((h.moveTo hnow).quiesce hrest hrest')
        (hw.move hnow).quiesce (hv.move hvnow).quiesce ?_ hrest hrest' (hn' _ ?_) (hm' _ ?_)
        hin rfl⟩
      · rw [hreads]; exact hle
      · rw [now, hreads]
      · rw [now, hreads']

theorem calmTo_right (h : Abreast σ w v) (hw : Played w) (hv : Played v)
    (ht : w.clock.elapsed ≤ target) (hwr : w.ready = []) (hvr : v.ready = [])
    (hin : (w.goTo target).InTime) : v.CalmTo target := by
  unfold World.goTo at hin
  unfold CalmTo
  rw [← h.paired.clock]
  split
  · rename_i hjumps
    rw [if_pos hjumps] at hin
    exact (h.moveTo ht).rests_right (hv.move (h.paired.clock ▸ ht)) (hw.inTime_move ht hin)
  · rename_i hjumps
    rw [if_neg hjumps] at hin
    exact h.calmPass_right hw hv ht hwr hvr (enough_stops w target) (enough_stops v target) hin

theorem calmStep_right (h : Abreast σ w v) (hw : Played w) (hv : Played v) (s : ScenarioStep V)
    (hin : (w.take s).1.InTime) : v.CalmStep s := by
  have hwin : w.InTime := InTime.before hin (take_way s hw.reached).ops.later
  have hwr := (hw.comes_to_rest hwin).1
  have hvr := h.rests_right hv hwin
  have hq := h.quiesce hwr hvr
  cases s with
  | call c => trivial
  | settle => exact hvr
  | setElapsed t =>
    refine ⟨hvr, fun hlt => ?_⟩
    rw [← hq.paired.clock] at hlt
    have hin : (w.setElapsed t).InTime := hin
    unfold World.setElapsed at hin
    dsimp only at hin
    rw [if_pos hlt] at hin
    exact hq.calmTo_right hw.quiesce hv.quiesce (Nat.le_of_lt hlt) hwr hvr hin
  | advance d =>
    refine ⟨hvr, fun target hadd => ?_⟩
    rw [← hq.paired.clock] at hadd ⊢
    have hin : (w.advance d).1.InTime := hin
    unfold World.advance at hin
    dsimp only at hin
    rw [hadd] at hin
    dsimp only at hin
    have hle := Duration.le_of_add? hadd
    split
    · rename_i hjumps
      rw [if_pos hjumps] at hin
      exact (hq.report _ _).calmTo_right (hw.quiesce.report _) (hv.quiesce.report _) hle hwr hvr hin
    · rename_i hjumps
      rw [if_neg hjumps] at hin
      exact hq.calmTo_right hw.quiesce hv.quiesce hle hwr hvr hin

/-- Two runs that are side by side stay so as long as one of them is in time. -/
theorem after_inTime {steps : List (ScenarioStep V)} (h : Abreast σ w v) (hw : Played w)
    (hv : Played v) (hs : ∀ s ∈ steps, s.Fair σ) (hin : (w.after steps).InTime) :
    Abreast σ (w.after steps) (v.after steps) := by
  induction steps generalizing w v with
  | nil => exact h
  | cons s steps ih =>
    have htaken : (w.take s).1.InTime :=
      InTime.before hin (after_way steps (hw.take s).reached).ops.later
    exact ih (h.take (hs s List.mem_cons_self) (hw.calmStep s htaken)
      (h.calmStep_right hw hv s htaken)) (hw.take s) (hv.take s)
      (fun s hm => hs s (List.mem_cons_of_mem _ hm)) hin

end Abreast

end TimedTasks

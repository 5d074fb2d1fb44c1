import TimedTasks.Proofs.Abreast
/-!
Paired runs through the passage of time. A clock that does not jump stops wherever a task is due, so
one of the runs may stop where the other has no task to let run. That makes no difference: a run
that is at rest may be stopped anywhere before its next task is due.
-/

namespace TimedTasks

open World

variable {V : Type} {σ : Pairing} {f : Focus} {w v : World V} {r : TaskRef} {t target : Duration}
  {n m : Nat}

namespace World

/-! ## Where the clock stops -/

/-- The next stop on the way to a reading. -/
def stopBefore? (w : World V) (target : Duration) : Option Duration :=
  (w.nextStop? target.nanos).bind Duration.ofNanos?

theorem passTo_succ (w : World V) (target : Duration) (n : Nat) :
    w.passTo target (n + 1) =
      match w.stopBefore? target with
      | some t => (w.moveTo t).quiesce.passTo target n
      | none => (w.moveTo target).quiesce := rfl

theorem passTo_last (h : w.stopBefore? target = none) (n : Nat) :
    w.passTo target n = (w.moveTo target).quiesce := by
  cases n with
  | zero => rfl
  | succ n => rw [passTo_succ, h]

/-- Whether a run that passes through stops on the way to a reading comes to rest at each of them,
and there. -/
def CalmPass (w : World V) (target : Duration) : (n : Nat) → Prop
  | 0 => (w.moveTo target).quiesce.ready = []
  | n + 1 =>
    match w.stopBefore? target with
    | some t => (w.moveTo t).quiesce.ready = [] ∧ (w.moveTo t).quiesce.CalmPass target n
    | none => (w.moveTo target).quiesce.ready = []

theorem calmPass_last (h : w.stopBefore? target = none) (hc : w.CalmPass target n) :
    (w.moveTo target).quiesce.ready = [] := by
  cases n with
  | zero => exact hc
  | succ n =>
    rw [CalmPass, h] at hc
    exact hc

theorem calmPass_stop (h : w.stopBefore? target = some t) (hc : w.CalmPass target (n + 1)) :
    (w.moveTo t).quiesce.ready = [] ∧ (w.moveTo t).quiesce.CalmPass target n := by
  rw [CalmPass, h] at hc
  exact hc

/-- The times from now on at which waiting tasks are due. -/
def dues (w : World V) : List Instant := w.waiting.filterMap w.deadline?

theorem stops_eq (w : World V) :
    w.stops = (w.dues.map Instant.ceilMilli).filter (w.now < ·) := rfl

/-- The next stop is the first whole millisecond at which a waiting task is due. -/
theorem stopBefore?_eq_some (h : w.stopBefore? target = some t) :
    w.now < t.nanos ∧ t.nanos ≤ target.nanos ∧ nanosPerMilli ∣ t.nanos ∧
      ∀ d ∈ w.dues, w.now < d → t.nanos ≤ d.ceilMilli := by
  obtain ⟨k, hk, ht⟩ := Option.bind_eq_some_iff.mp h
  obtain rfl := Duration.ofNanos?_eq_some_iff.mp ht
  unfold nextStop? at hk
  split at hk
  · rename_i u hmin
    split at hk
    · rename_i hu
      obtain rfl := Option.some.inj hk
      obtain ⟨hmem, hleast⟩ := List.min?_eq_some_iff.mp hmin
      rw [stops_eq] at hmem hleast
      obtain ⟨hmem, hlt⟩ := List.mem_filter.mp hmem
      obtain ⟨d, -, hd⟩ := List.mem_map.mp hmem
      refine ⟨of_decide_eq_true hlt, hu, hd ▸ Nat.dvd_mul_left .., fun d hd hnow => ?_⟩
      refine hleast _ (List.mem_filter.mpr ⟨List.mem_map.mpr ⟨d, hd, rfl⟩, ?_⟩)
      exact decide_eq_true (Nat.lt_of_lt_of_le hnow (Instant.le_ceilMilli d))
    · cases hk
  · cases hk

/-- Without a stop nothing is due before the reading. -/
theorem stopBefore?_eq_none (h : w.stopBefore? target = none) :
    ∀ d ∈ w.dues, w.now < d → target.nanos < d.ceilMilli := by
  intro d hd hnow
  by_contra hle
  have hmem : d.ceilMilli ∈ w.stops := by
    rw [stops_eq]
    refine List.mem_filter.mpr ⟨List.mem_map.mpr ⟨d, hd, rfl⟩, ?_⟩
    exact decide_eq_true (Nat.lt_of_lt_of_le hnow (Instant.le_ceilMilli d))
  obtain ⟨u, hu⟩ := Option.isSome_iff_exists.mp (List.isSome_min?_of_mem hmem)
  have hle' : u ≤ target.nanos := Nat.le_trans
    ((List.min?_eq_some_iff.mp hu).2 _ hmem) (Nat.le_of_not_lt hle)
  have hlt := Nat.lt_of_le_of_lt hle' target.nanos_lt
  simp [stopBefore?, nextStop?, hu, hle', Duration.ofNanos?, hlt] at h

/-- Whether a run on its way to a reading goes past a time without having stopped. -/
def StopsAfter (w : World V) (target t : Duration) : Prop :=
  ∀ t', w.stopBefore? target = some t' → t.nanos < t'.nanos

/-- Of two runs on the way to a reading neither stops, one stops before the other, or both stop at
one time. -/
theorem stops_cases (w v : World V) (target : Duration) :
    (w.stopBefore? target = none ∧ v.stopBefore? target = none) ∨
      (∃ t, w.stopBefore? target = some t ∧ v.StopsAfter target t) ∨
      (∃ t, v.stopBefore? target = some t ∧ w.StopsAfter target t) ∨
      ∃ t, w.stopBefore? target = some t ∧ v.stopBefore? target = some t := by
  cases hs : w.stopBefore? target with
  | none =>
    cases hs' : v.stopBefore? target with
    | none => exact .inl ⟨rfl, rfl⟩
    | some t' => exact .inr (.inr (.inl ⟨t', rfl, fun t ht => nomatch hs.symm.trans ht⟩))
  | some t =>
    cases hs' : v.stopBefore? target with
    | none => exact .inr (.inl ⟨t, rfl, fun t' ht' => nomatch hs'.symm.trans ht'⟩)
    | some t' =>
      rcases Nat.lt_trichotomy t.nanos t'.nanos with hlt | heq | hlt
      · exact .inr (.inl ⟨t, rfl, fun u hu => Option.some.inj (hs'.symm.trans hu) ▸ hlt⟩)
      · cases t
        cases t'
        cases heq
        exact .inr (.inr (.inr ⟨_, rfl, rfl⟩))
      · exact .inr (.inr (.inl ⟨t', rfl, fun u hu => Option.some.inj (hs.symm.trans hu) ▸ hlt⟩))

/-! ## A stop at which nothing is due -/

/-- The run with another reading of the clock. -/
def atReading (w : World V) (t : Duration) : World V :=
  { w with clock := { w.clock with elapsed := t } }

/-- Nothing is due up to a time. -/
def Idle (w : World V) (t : Duration) : Prop := ∀ d ∈ w.dues, t.nanos < d

theorem isDue_eq_false (h : w.Idle t) (hr : r ∈ w.waiting) : (w.atReading t).isDue r = false := by
  have hdue : (w.atReading t).deadline? r = w.deadline? r := rfl
  unfold isDue
  rw [hdue]
  cases hd : w.deadline? r with
  | none => rfl
  | some d =>
    have hlt := h d (List.mem_filterMap.mpr ⟨r, hr, hd⟩)
    exact decide_eq_false (Nat.not_le.mpr hlt)

/-- A movement of the clock up to which nothing is due wakes nobody. -/
theorem moveTo_of_idle (h : w.Idle t) : w.moveTo t = w.atReading t := by
  have hwoken : w.waiting.filter (w.atReading t).isDue = [] :=
    List.filter_eq_nil_iff.mpr fun r hr => by simp [isDue_eq_false h hr]
  have hkept : w.waiting.filter (fun r => !(w.atReading t).isDue r) = w.waiting :=
    List.filter_eq_self.mpr fun r hr => by simp [isDue_eq_false h hr]
  show { w.atReading t with
    ready := w.ready ++ w.waiting.filter (w.atReading t).isDue
    waiting := w.waiting.filter fun r => !(w.atReading t).isDue r } = w.atReading t
  rw [hwoken, hkept, List.append_nil]
  rfl

theorem quiesce_of_nil (h : w.ready = []) : w.quiesce = w := Abreast.turns_of_nil h

theorem stopBefore?_atReading (h : w.Idle t) (hnow : w.now ≤ t.nanos) (target : Duration) :
    (w.atReading t).stopBefore? target = w.stopBefore? target := by
  have hstops : (w.atReading t).stops = w.stops := by
    have hall (u : World V) (hu : ∀ d ∈ u.dues, u.now < d) :
        u.stops = u.dues.map Instant.ceilMilli := by
      rw [stops_eq, List.filter_eq_self]
      intro k hk
      obtain ⟨d, hd, rfl⟩ := List.mem_map.mp hk
      exact decide_eq_true (Nat.lt_of_lt_of_le (hu d hd) (Instant.le_ceilMilli d))
    rw [hall (w.atReading t) h, hall w fun d hd => Nat.lt_of_le_of_lt hnow (h d hd)]
    rfl
  unfold stopBefore? nextStop?
  rw [hstops]

/-- Such a stop may be made or left out. -/
theorem passTo_atReading (h : w.Idle t) (hnow : w.now ≤ t.nanos) (target : Duration) (n : Nat) :
    (w.atReading t).passTo target n = w.passTo target n := by
  cases n with
  | zero => rfl
  | succ n =>
    rw [passTo_succ, passTo_succ, stopBefore?_atReading h hnow]
    rfl

theorem calmPass_atReading (h : w.Idle t) (hnow : w.now ≤ t.nanos) (target : Duration) (n : Nat) :
    (w.atReading t).CalmPass target n ↔ w.CalmPass target n := by
  cases n with
  | zero => rfl
  | succ n =>
    rw [CalmPass, CalmPass, stopBefore?_atReading h hnow]
    rfl

end World

/-- What a waiting task waits for is yet to come. -/
theorem Reached.lt_of_mem_dues (hr : Reached f w) {d : Instant} (hd : d ∈ w.dues) : w.now < d := by
  obtain ⟨r, hr', hd⟩ := List.mem_filterMap.mp hd
  have hs := hr.asleep r hr'
  cases r with
  | child i =>
    obtain ⟨child, hc, -, hs⟩ := hs
    simp only [deadline?, stageOf?, hc, Option.map_some] at hd
    split at hd
    · rename_i due hstage
      obtain rfl := Option.some.inj hd
      rw [Option.some.inj hstage] at hs
      exact hs
    · rename_i u rest hstage
      obtain rfl := Option.some.inj hd
      rw [Option.some.inj hstage] at hs
      exact hs
    · cases hd
  | waiter j =>
    obtain ⟨x, on, deadline, hx, hst, -, hs⟩ := hs
    simp only [deadline?, waiterStage?, hx, Option.map_some, hst] at hd
    exact hs d hd
  | watcher e => cases hd

namespace Abreast

theorem moveTo (h : Abreast σ w v) (ht : w.clock.elapsed ≤ t) :
    Abreast σ (w.moveTo t) (v.moveTo t) where
  paired := by
    have hclock : Paired σ nobody (w.atReading t) (v.atReading t) :=
      { h.paired with clock := congrArg (fun c : Clock => { c with elapsed := t }) h.paired.clock }
    exact hclock.wakeDue
  left := (moveTo_way ht).reached h.left
  right := (moveTo_way (by rw [← h.paired.clock]; exact ht)).reached h.right
  past i j hij := (h.past i j hij).imp (moveTo_way ht).ops.later.past
    (moveTo_way (by rw [← h.paired.clock]; exact ht)).ops.later.past

theorem moveTo_quiesce (h : Abreast σ w v) (ht : w.clock.elapsed ≤ t)
    (hw : (w.moveTo t).quiesce.ready = []) (hv : (v.moveTo t).quiesce.ready = []) :
    Abreast σ (w.moveTo t).quiesce (v.moveTo t).quiesce := (h.moveTo ht).quiesce hw hv

/-- The other run may stop where this one does. -/
theorem stop_left (h : Abreast σ w v) (ht : w.clock.elapsed ≤ t) (hready : v.ready = [])
    (hidle : v.Idle t) (hw : (w.moveTo t).quiesce.ready = []) :
    Abreast σ (w.moveTo t).quiesce (v.atReading t) := by
  have hv : (v.moveTo t).quiesce = v.atReading t := by
    rw [moveTo_of_idle hidle]
    exact quiesce_of_nil hready
  rw [← hv]
  exact h.moveTo_quiesce ht hw (by rw [hv]; exact hready)

/-- Whether `n` stops are enough to get to a reading: there are not more whole milliseconds on the
way. -/
def Enough (w : World V) (target : Duration) (n : Nat) : Prop :=
  target.nanos / nanosPerMilli ≤ w.now / nanosPerMilli + n

theorem enough_stops (u : World V) (target : Duration) :
    Enough u target ((target.nanos - u.now) / nanosPerMilli + 1) := by
  unfold Enough nanosPerMilli
  generalize target.nanos = a
  generalize (u.now : Nat) = b
  have : a / 1000000 ≤ b / 1000000 + ((a - b) / 1000000 + 1) := by omega
  exact this

theorem enough_stop (he : Enough w target n) (hs : w.stopBefore? target = some t) :
    ∃ k, n = k + 1 ∧ ∀ u : World V, u.now = t.nanos → Enough u target k := by
  obtain ⟨hlt, hle, ⟨q, hq⟩, -⟩ := stopBefore?_eq_some hs
  have hpos : 0 < nanosPerMilli := by decide
  have hq' : t.nanos / nanosPerMilli = q := by rw [hq, Nat.mul_div_cancel_left _ hpos]
  have hbefore : @LT.lt Nat _ (w.now / nanosPerMilli) q :=
    Nat.div_lt_of_lt_mul (Nat.lt_of_lt_of_eq hlt hq)
  have hafter : q ≤ target.nanos / nanosPerMilli := hq' ▸ Nat.div_le_div_right hle
  unfold Enough at he ⊢
  refine ⟨n - 1, by omega, fun u hu => ?_⟩
  rw [hu, hq']
  omega

/-- Nothing is due before the first stop, on whichever side that is. -/
theorem idle_of_stop {u : World V} (hr : Reached f u) (hs : w.stopBefore? target = some t)
    (hu : u.StopsAfter target t) : u.Idle t := by
  obtain ⟨-, hle, ⟨q, hq⟩, -⟩ := stopBefore?_eq_some hs
  intro d hd
  have hd' := hr.lt_of_mem_dues hd
  have hceil : t.nanos < d.ceilMilli := by
    cases hs' : u.stopBefore? target with
    | none => exact Nat.lt_of_le_of_lt hle (stopBefore?_eq_none hs' d hd hd')
    | some t' => exact Nat.lt_of_lt_of_le (hu t' hs') ((stopBefore?_eq_some hs').2.2.2 d hd hd')
  by_contra hnot
  have hdle : d ≤ t.nanos := Nat.le_of_not_lt hnot
  refine absurd hceil (Nat.not_lt.mpr ?_)
  rw [hq] at hdle ⊢
  unfold Instant.ceilMilli nanosPerMilli at *
  omega

theorem clock_moveTo_quiesce (hr : Reached (.caller none) w) (ht : w.clock.elapsed ≤ t) :
    (w.moveTo t).quiesce.clock = { w.clock with elapsed := t } :=
  (quiesce_leads ((moveTo_way ht).reached hr)).clock

/-- Both runs pass through their stops to a reading. -/
theorem passTo (h : Abreast σ w v) (ht : w.clock.elapsed ≤ target) (hwr : w.ready = [])
    (hvr : v.ready = []) (hn : Enough w target n) (hm : Enough v target m)
    (hw : w.CalmPass target n) (hv : v.CalmPass target m) :
    Abreast σ (w.passTo target n) (v.passTo target m) := by
  induction hk : n + m using Nat.strongRecOn generalizing σ w v n m with
  | ind k ih =>
    -- Only one of the runs stops, or stops first.
    have first {σ : Pairing} {w v : World V} {n m : Nat} {t : Duration} (h : Abreast σ w v)
        (ht : w.clock.elapsed ≤ target) (hvr : v.ready = []) (hn : Enough w target n)
        (hm : Enough v target m) (hw : w.CalmPass target n) (hv : v.CalmPass target m)
        (hk : n + m = k) (hs : w.stopBefore? target = some t) (hlater : v.StopsAfter target t) :
        Abreast σ (w.passTo target n) (v.passTo target m) := by
      obtain ⟨hlt, hle, -, -⟩ := stopBefore?_eq_some hs
      obtain ⟨n, rfl, hn'⟩ := enough_stop hn hs
      obtain ⟨hrest, hw⟩ := calmPass_stop hs hw
      have hidle := idle_of_stop h.right hs hlater
      have hvle : v.now ≤ t.nanos := h.paired.now_eq ▸ Nat.le_of_lt hlt
      rw [passTo_succ, hs, ← passTo_atReading hidle hvle]
      have hclock := clock_moveTo_quiesce h.left (Nat.le_of_lt hlt : w.clock.elapsed ≤ t)
      refine ih (n + m) (by omega) (h.stop_left (Nat.le_of_lt hlt) hvr hidle hrest) ?_ hrest hvr
        (hn' _ ?_) ?_ hw ((calmPass_atReading hidle hvle target m).mpr hv) rfl
      · rw [hclock]; exact hle
      · rw [now, hclock]
      · exact Nat.le_trans hm (Nat.add_le_add_right (Nat.div_le_div_right hvle) m)
    have htv : v.clock.elapsed ≤ target := h.paired.clock ▸ ht
    rcases stops_cases w v target with ⟨hs, hs'⟩ | ⟨t, hs, hlater⟩ | ⟨t, hs', hlater⟩ | ⟨t, hs, hs'⟩
    · rw [passTo_last hs, passTo_last hs']
      exact h.moveTo_quiesce ht (calmPass_last hs hw) (calmPass_last hs' hv)
    · exact first h ht hvr hn hm hw hv hk hs hlater
    · exact (first h.flip htv hwr hm hn hv hw (by omega) hs' hlater).flip
    · obtain ⟨hlt, hle, -, -⟩ := stopBefore?_eq_some hs
      obtain ⟨n, rfl, hn'⟩ := enough_stop hn hs
      obtain ⟨m, rfl, hm'⟩ := enough_stop hm hs'
      obtain ⟨hrest, hw⟩ := calmPass_stop hs hw
      obtain ⟨hrest', hv⟩ := calmPass_stop hs' hv
      have hclock := clock_moveTo_quiesce h.left (Nat.le_of_lt hlt : w.clock.elapsed ≤ t)
      have h' := h.moveTo_quiesce (Nat.le_of_lt hlt) hrest hrest'
      have hnow' : (w.moveTo t).quiesce.now = t.nanos := by rw [now, hclock]
      rw [passTo_succ, passTo_succ, hs, hs']
      exact ih (n + m) (by omega) h' (by rw [hclock]; exact hle) hrest hrest' (hn' _ hnow')
        (hm' _ (h'.paired.now_eq ▸ hnow')) hw hv rfl

end Abreast

namespace World

/-! ## Coming to rest -/

/-- Whether a run comes to rest wherever it lets tasks run on the way to a reading. -/
def CalmTo (w : World V) (target : Duration) : Prop :=
  if w.clock.jumps then (w.moveTo target).quiesce.ready = []
  else w.CalmPass target ((target.nanos - w.now) / nanosPerMilli + 1)

/-- Whether a run comes to rest wherever a step lets tasks run. -/
def CalmStep (w : World V) : ScenarioStep V → Prop
  | .call _ => True
  | .advance d =>
    w.quiesce.ready = [] ∧
      ∀ target, w.quiesce.clock.elapsed.add? d = some target →
        (if w.quiesce.clock.jumps then w.quiesce.report (.clockAdvanced d target)
          else w.quiesce).CalmTo target
  | .setElapsed t =>
    w.quiesce.ready = [] ∧ (w.quiesce.clock.elapsed < t → w.quiesce.CalmTo t)
  | .settle => w.quiesce.ready = []

/-- Whether it does so at every step of a scenario. -/
def Calm : World V → List (ScenarioStep V) → Prop
  | _, [] => True
  | w, s :: rest => w.CalmStep s ∧ (w.take s).1.Calm rest

end World

namespace Abreast

theorem goTo (h : Abreast σ w v) (ht : w.clock.elapsed ≤ target) (hwr : w.ready = [])
    (hvr : v.ready = []) (hw : w.CalmTo target) (hv : v.CalmTo target) :
    Abreast σ (w.goTo target) (v.goTo target) := by
  unfold CalmTo at hw hv
  unfold World.goTo
  rw [← h.paired.clock] at hv ⊢
  split at hw
  · rename_i hjumps
    rw [if_pos hjumps] at hv ⊢
    rw [if_pos hjumps]
    exact h.moveTo_quiesce ht hw hv
  · rename_i hjumps
    rw [if_neg hjumps] at hv ⊢
    rw [if_neg hjumps]
    exact h.passTo ht hwr hvr (enough_stops w target) (enough_stops v target) hw hv

theorem report (h : Abreast σ w v) (n n' : Notice) : Abreast σ (w.report n) (v.report n') where
  paired := h.paired.report n n'
  left := (report_leads n).reached h.left
  right := (report_leads n').reached h.right
  past := h.past

theorem advance (h : Abreast σ w v) (d : Duration) (hw : w.CalmStep (.advance d))
    (hv : v.CalmStep (.advance d)) :
    Abreast σ (w.advance d).1 (v.advance d).1 ∧ (w.advance d).2 = (v.advance d).2 := by
  obtain ⟨hwr, hw⟩ := hw
  obtain ⟨hvr, hv⟩ := hv
  have hq := h.quiesce hwr hvr
  unfold World.advance
  dsimp only
  rw [← hq.paired.clock] at hv ⊢
  cases hadd : w.quiesce.clock.elapsed.add? d with
  | none => exact ⟨hq, rfl⟩
  | some target =>
    have hle := Duration.le_of_add? hadd
    have hw := hw target hadd
    have hv := hv target hadd
    refine ⟨?_, rfl⟩
    dsimp only at hw hv ⊢
    split at hw
    · rename_i hjumps
      rw [if_pos hjumps] at hv
      rw [if_pos hjumps, if_pos hjumps]
      exact (hq.report _ _).goTo hle hwr hvr hw hv
    · rename_i hjumps
      rw [if_neg hjumps] at hv
      rw [if_neg hjumps, if_neg hjumps]
      exact hq.goTo hle hwr hvr hw hv

theorem setElapsed (h : Abreast σ w v) (t : Duration) (hw : w.CalmStep (.setElapsed t))
    (hv : v.CalmStep (.setElapsed t)) : Abreast σ (w.setElapsed t) (v.setElapsed t) := by
  obtain ⟨hwr, hw⟩ := hw
  obtain ⟨hvr, hv⟩ := hv
  have hq := h.quiesce hwr hvr
  unfold World.setElapsed
  dsimp only
  rw [← hq.paired.clock] at hv ⊢
  split
  · rename_i hlt
    exact hq.goTo (Nat.le_of_lt hlt) hwr hvr (hw hlt) (hv hlt)
  · exact hq

/-- A call is made on both sides. -/
theorem perform (h : Abreast σ w v) {c : Call V} (hp : σ.Polite c.mentions) :
    Abreast σ (w.perform c).1 (v.perform c).1 ∧
      σ.Answers (w.perform c).2 (v.perform c).2 := by
  obtain ⟨hpaired, hanswer⟩ := h.paired.perform hp
  exact ⟨⟨hpaired, (perform_leads c).reached h.left, (perform_leads c).reached h.right,
    fun i j hij => (h.past i j hij).imp (perform_leads c h.left).ops.later.past
      (perform_leads c h.right).ops.later.past⟩, hanswer⟩

/-- So is one that touches nothing but what is veiled. -/
theorem perform_tame (h : Abreast σ w v) {c : Call V} (ht : c.Tame σ) :
    Abreast σ (w.perform c).1 (v.perform c).1 :=
  ⟨((h.paired.perform_left ht).flip.perform_left ht.flip).flip,
    (perform_leads c).reached h.left, (perform_leads c).reached h.right,
    fun i j hij => (h.past i j hij).imp (perform_leads c h.left).ops.later.past
      (perform_leads c h.right).ops.later.past⟩

end Abreast

/-- A step from outside that refers to nothing that is veiled. -/
def ScenarioStep.Polite (σ : Pairing) : ScenarioStep V → Prop
  | .call c => σ.Polite c.mentions
  | _ => True

/-- A step from outside that refers to nothing that is veiled or touches nothing else. -/
def ScenarioStep.Fair (σ : Pairing) : ScenarioStep V → Prop
  | .call c => σ.Polite c.mentions ∨ c.Tame σ
  | _ => True

theorem ScenarioStep.fair_of_polite {σ : Pairing} {s : ScenarioStep V} (h : s.Polite σ) :
    s.Fair σ := by
  cases s with
  | call c => exact .inl h
  | _ => trivial

namespace Abreast

theorem take (h : Abreast σ w v) {s : ScenarioStep V} (hs : s.Fair σ) (hw : w.CalmStep s)
    (hv : v.CalmStep s) : Abreast σ (w.take s).1 (v.take s).1 := by
  cases s with
  | call c =>
    rcases hs with hp | ht
    · exact (h.perform hp).1
    · exact h.perform_tame ht
  | advance d => exact (h.advance d hw hv).1
  | setElapsed t => exact h.setElapsed t hw hv
  | settle => exact h.quiesce hw hv

/-- What a step shows that refers to nothing that is veiled. -/
theorem take_answer (h : Abreast σ w v) {s : ScenarioStep V} (hs : s.Polite σ)
    (hw : w.CalmStep s) (hv : v.CalmStep s) :
    Option.Rel σ.Answers (w.take s).2 (v.take s).2 := by
  cases s with
  | call c => exact .some (h.perform hs).2
  | advance d =>
    have heq := (h.advance d hw hv).2
    show Option.Rel σ.Answers ((w.advance d).2.map .panic) ((v.advance d).2.map .panic)
    rw [heq]
    cases (v.advance d).2 with
    | none => exact .none
    | some p => exact .some (.inl rfl)
  | setElapsed t => exact .none
  | settle => exact .none

/-- Two runs that are side by side stay so through any steps at which they come to rest. -/
theorem after {steps : List (ScenarioStep V)} (h : Abreast σ w v)
    (hs : ∀ s ∈ steps, s.Fair σ) (hw : w.Calm steps) (hv : v.Calm steps) :
    Abreast σ (w.after steps) (v.after steps) := by
  induction steps generalizing w v with
  | nil => exact h
  | cons s steps ih =>
    exact ih (h.take (hs s List.mem_cons_self) hw.1 hv.1)
      (fun s hm => hs s (List.mem_cons_of_mem _ hm)) hw.2 hv.2

end Abreast

end TimedTasks

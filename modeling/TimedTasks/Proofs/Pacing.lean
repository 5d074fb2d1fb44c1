import TimedTasks.Proofs.OnTime
/-!
Periodic tasks at a fixed rate and with a fixed delay. At a fixed rate the due times are a period
apart, however late the runs start, unless a run ends later than that; then the next run is due at
once, and what was missed is not made up for otherwise. With a fixed delay each run is due a delay
after the last one has returned.
-/

namespace TimedTasks

/-! ## Times that rise -/

/-- A time stands at most `k` times in a list that does not fall, and rises within `k` places. -/
theorem count_le_of_rises {l : List Instant} {k : Nat} (hs : l.Pairwise (· ≤ ·))
    (hk : ∀ (n : Nat) (a b : Instant), l[n]? = some a → l[n + k]? = some b → a < b) (t : Instant) :
    l.count t ≤ k := by
  induction l with
  | nil => exact Nat.zero_le _
  | cons a l ih =>
    obtain ⟨-, hs'⟩ := List.pairwise_cons.mp hs
    by_cases ha : a = t
    · subst ha
      cases k with
      | zero => exact absurd (hk 0 a a rfl rfl) (Nat.lt_irrefl _)
      | succ k =>
        -- Whatever stands `k` places further on in the rest is later.
        have hlater : ∀ x ∈ l.drop k, a < x := by
          intro x hx
          obtain ⟨j, hj, rfl⟩ := List.mem_drop_iff_getElem.mp hx
          have hj : k + j < l.length := Nat.add_comm j k ▸ hj
          have hlt : k < l.length := Nat.lt_of_le_of_lt (Nat.le_add_right k j) hj
          refine Nat.lt_of_lt_of_le (hk 0 a l[k] rfl ?_) ?_
          · rw [Nat.zero_add, List.getElem?_cons_succ, List.getElem?_eq_getElem hlt]
          · cases j with
            | zero => exact Nat.le_refl _
            | succ j => exact List.pairwise_iff_getElem.mp hs' k (k + (j + 1)) hlt hj (by omega)
        rw [List.count_cons_self, ← List.take_append_drop k l, List.count_append,
          List.count_eq_zero_of_not_mem fun h => Nat.lt_irrefl _ (hlater a h)]
        have := List.count_le_length (a := a) (l := l.take k)
        rw [List.length_take] at this
        omega
    · rw [List.count_cons_of_ne ha]
      exact ih hs' fun n x y hx hy =>
        hk (n + 1) x y hx (by rw [Nat.add_right_comm, List.getElem?_cons_succ]; exact hy)

namespace InTurn

variable {starts returns : List Instant}

/-- Between the starts of two runs the first of them returns. -/
theorem between (h : InTurn starts returns) {n : Nat} {s s' : Instant} (hs : starts[n]? = some s)
    (hs' : starts[n + 1]? = some s') : ∃ t, returns[n]? = some t ∧ s ≤ t ∧ t ≤ s' := by
  have hlt : n + 1 < starts.length := (List.getElem?_eq_some_iff.mp hs').1
  have ht := List.getElem?_eq_getElem (Nat.lt_of_add_lt_add_right (Nat.lt_of_lt_of_le hlt h.most))
  exact ⟨_, ht, h.lasts n s _ hs ht, h.follows n s' _ hs' ht⟩

theorem sorted (h : InTurn starts returns) : starts.Pairwise (· ≤ ·) := by
  refine List.isChain_iff_pairwise.mp (List.isChain_iff_getElem.mpr fun n hn => ?_)
  obtain ⟨t, -, hst, hts⟩ := h.between (List.getElem?_eq_getElem (Nat.lt_of_succ_lt hn))
    (List.getElem?_eq_getElem hn)
  exact Nat.le_trans hst hts

end InTurn

open World

variable {V : Type} {f : Focus} {w w₀ : World V} {b : Option Nat} {e c : Nat} {name : String}
  {initial : Duration} {runs : List (Body V)} {due : List Instant} {pace : Pace} {first : Instant}

namespace World.KeepsTime

/-- Before each due time but the first a run has returned. -/
theorem returned (h : w.KeepsTime f c due) {n : Nat} (hn : n + 1 < due.length) :
    ∃ t, (w.returnTimes c)[n]? = some t := by
  rw [h.length] at hn
  exact ⟨_, List.getElem?_eq_getElem (Nat.lt_of_succ_lt_succ hn)⟩

/-- A run that has returned was due. -/
theorem was_due (h : w.KeepsTime f c due) {n : Nat} {t : Instant}
    (ht : (w.returnTimes c)[n]? = some t) : ∃ m, due[n]? = some m := by
  have hlt : n < (w.returnTimes c).length := (List.getElem?_eq_some_iff.mp ht).1
  exact ⟨_, List.getElem?_eq_getElem (by rw [h.length]; exact Nat.lt_succ_of_lt hlt)⟩

end World.KeepsTime

/-! ## A fixed rate -/

/-- From its acceptance on, and as long as its due times can be represented and kept, a task at a
fixed rate keeps to them: the first lies the initial delay after the acceptance, and each next one a
period after the last, or at the end of the run if that is later. So they rise; they are exactly a
period apart as long as no run ends after the next due time; and at any one time at most two runs
start. -/
theorem Strode.fixed_rate (h : Strode (.caller b) w₀) {period : Duration}
    (hok : (w₀.scheduleRepeating e name (.fixedRate period) initial runs).2 = .ok c)
    (hs : Strides (.caller b) (w₀.scheduleRepeating e name (.fixedRate period) initial runs).1 f w)
    (hdue : w.dueTimes (.fixedRate period) (w₀.now + initial.nanos) c = due)
    (hfit : ∀ m ∈ due, Mark.Fits (w₀.originOf e) m) :
    w.KeepsTime f c due ∧
    due[0]? = some (w₀.now + initial.nanos) ∧
    (∀ (n : Nat) (m t : Instant), due[n]? = some m → (w.returnTimes c)[n]? = some t →
      due[n + 1]? = some (max (m + period.nanos) t)) ∧
    due.Pairwise (· < ·) ∧
    (∀ n < due.length, (∀ k < n, ∀ m t, due[k]? = some m → (w.returnTimes c)[k]? = some t →
      t ≤ m + period.nanos) → due[n]? = some (w₀.now + initial.nanos + n * period.nanos)) ∧
    ∀ t, (w.startTimes c).count t ≤ 2 := by
  have hpos : 0 < period.nanos := (scheduleRepeating_fresh h.walked.reached hok).1
  have hkeeps : w.KeepsTime f c due := hdue ▸ h.keeps_time hok hs (hdue.symm ▸ hfit)
  have hfirst : due[0]? = some (w₀.now + initial.nanos) := hdue ▸ List.getElem?_scanl_zero
  have hnext : ∀ (n : Nat) (m t : Instant), due[n]? = some m → (w.returnTimes c)[n]? = some t →
      due[n + 1]? = some (max (m + period.nanos) t) := by
    subst hdue
    exact fun n m t => getElem?_dueTimes_succ
  refine ⟨hkeeps, hfirst, hnext, ?_, ?_, fun t => ?_⟩
  · refine List.isChain_iff_pairwise.mp (List.isChain_iff_getElem.mpr fun n hn => ?_)
    obtain ⟨t, ht⟩ := hkeeps.returned hn
    have hm := hnext n _ t (List.getElem?_eq_getElem (Nat.lt_of_succ_lt hn)) ht
    rw [List.getElem?_eq_getElem hn] at hm
    rw [Option.some.inj hm]
    exact Nat.lt_of_lt_of_le (Nat.lt_add_of_pos_right hpos) (Nat.le_max_left ..)
  · intro n hn hin
    induction n with
    | zero => rw [hfirst, Nat.zero_mul, Nat.add_zero]
    | succ n ih =>
      have hm := ih (Nat.lt_of_succ_lt hn) fun k hk => hin k (Nat.lt_succ_of_lt hk)
      obtain ⟨t, ht⟩ := hkeeps.returned hn
      rw [hnext n _ t hm ht, Nat.max_eq_left (hin n (Nat.lt_succ_self n) _ t hm ht), Nat.succ_mul,
        Nat.add_assoc]
  · refine count_le_of_rises hkeeps.inTurn.sorted (fun n s s₂ hs hs₂ => ?_) t
    -- Two due times lie between the first start and the third.
    have hlt : n + 1 < (w.startTimes c).length :=
      Nat.lt_of_succ_lt (List.getElem?_eq_some_iff.mp hs₂).1
    obtain ⟨t, ht, hst, -⟩ := hkeeps.inTurn.between hs (List.getElem?_eq_getElem hlt)
    obtain ⟨t', ht', -, -⟩ := hkeeps.inTurn.between (List.getElem?_eq_getElem hlt) hs₂
    obtain ⟨m, hm⟩ := hkeeps.was_due ht
    have hm₁ := hnext n m t hm ht
    have hm₂ := hnext (n + 1) _ t' hm₁ ht'
    calc s ≤ t := hst
      _ ≤ max (m + period.nanos) t := Nat.le_max_right ..
      _ < max (m + period.nanos) t + period.nanos := Nat.lt_add_of_pos_right hpos
      _ ≤ max (max (m + period.nanos) t + period.nanos) t' := Nat.le_max_left ..
      _ ≤ s₂ := hkeeps.notEarly (n + 2) _ s₂ hm₂ hs₂

/-- A task is first due after `20` and has a first run that takes `50`; then the clock jumps. -/
def ticking (pace : Pace) : World Nat :=
  (newPool.scheduleRepeating 0 "tick" pace ⟨20, by decide⟩
    [.steps [.sleep ⟨50, by decide⟩], .steps []]).1.after
      [.advance ⟨20, by decide⟩, .advance ⟨50, by decide⟩, .advance ⟨130, by decide⟩]

theorem strides_ticking (pace : Pace) : Strides (.caller none)
    (newPool.scheduleRepeating 0 "tick" pace ⟨20, by decide⟩
      [.steps [.sleep ⟨50, by decide⟩], .steps []]).1 (.caller none) (ticking pace) := by
  have hin := (scheduleRepeating_leads 0 "tick" pace ⟨20, by decide⟩
    [.steps [.sleep ⟨50, by decide⟩], .steps []]).1 strode_newPool.walked.reached
  have h := strode_newPool.strides (hin.strides strode_newPool)
  exact (after_way _ h.walked.reached).strides h

theorem fixed_rate_ticking :
    (ticking (.fixedRate ⟨40, by decide⟩)).startTimes 0 = [20, 70, 200, 200] ∧
    (ticking (.fixedRate ⟨40, by decide⟩)).returnTimes 0 = [70, 70, 200, 200] ∧
    (ticking (.fixedRate ⟨40, by decide⟩)).KeepsTime (.caller none) 0 [20, 70, 110, 200, 240] ∧
    (ticking (.fixedRate ⟨40, by decide⟩)).Shows 0 240 := by
  have hok : (newPool.scheduleRepeating 0 "tick" (.fixedRate ⟨40, by decide⟩) ⟨20, by decide⟩
    [.steps [.sleep ⟨50, by decide⟩], .steps []]).2 = .ok 0 := rfl
  have hdue : (ticking (.fixedRate ⟨40, by decide⟩)).dueTimes (.fixedRate ⟨40, by decide⟩) 20 0 =
    [20, 70, 110, 200, 240] := rfl
  obtain ⟨hkeeps, -⟩ := Strode.fixed_rate strode_newPool hok (strides_ticking _) hdue
    (by simp [Mark.Fits, Instant.limit, UInt64.size])
  exact ⟨rfl, rfl, hkeeps, hkeeps.shows 240 rfl⟩

/-! ## A fixed delay -/

/-- From its acceptance on, and as long as its due times can be represented and kept, a task with a
fixed delay keeps to them: the first lies the initial delay after the acceptance, and each next one
the delay after the end of a run. So between a run and the next one the delay passes, and at any one
time at most one run starts. -/
theorem Strode.fixed_delay (h : Strode (.caller b) w₀) {delay : Duration}
    (hok : (w₀.scheduleRepeating e name (.fixedDelay delay) initial runs).2 = .ok c)
    (hs : Strides (.caller b) (w₀.scheduleRepeating e name (.fixedDelay delay) initial runs).1 f w)
    (hdue : w.dueTimes (.fixedDelay delay) (w₀.now + initial.nanos) c = due)
    (hfit : ∀ m ∈ due, Mark.Fits (w₀.originOf e) m) :
    w.KeepsTime f c due ∧
    due[0]? = some (w₀.now + initial.nanos) ∧
    (∀ (n : Nat) (t : Instant), (w.returnTimes c)[n]? = some t →
      due[n + 1]? = some (t + delay.nanos)) ∧
    (∀ (n : Nat) (s t s' : Instant), (w.startTimes c)[n]? = some s →
      (w.returnTimes c)[n]? = some t → (w.startTimes c)[n + 1]? = some s' →
      t + delay.nanos ≤ s' ∧ s + (delay.nanos + (t - s)) ≤ s') ∧
    ∀ t, (w.startTimes c).count t ≤ 1 := by
  have hpos : 0 < delay.nanos := (scheduleRepeating_fresh h.walked.reached hok).1
  have hkeeps : w.KeepsTime f c due := hdue ▸ h.keeps_time hok hs (hdue.symm ▸ hfit)
  have hnext : ∀ (n : Nat) (t : Instant), (w.returnTimes c)[n]? = some t →
      due[n + 1]? = some (t + delay.nanos) := by
    intro n t ht
    obtain ⟨m, hm⟩ := hkeeps.was_due ht
    subst hdue
    exact getElem?_dueTimes_succ hm ht
  have hpause : ∀ (n : Nat) (t s' : Instant), (w.returnTimes c)[n]? = some t →
      (w.startTimes c)[n + 1]? = some s' → t + delay.nanos ≤ s' :=
    fun n t s' ht hs' => hkeeps.notEarly (n + 1) _ s' (hnext n t ht) hs'
  refine ⟨hkeeps, hdue ▸ List.getElem?_scanl_zero, hnext, fun n s t s' hs ht hs' => ?_, fun t => ?_⟩
  · have hst := hkeeps.inTurn.lasts n s t hs ht
    refine ⟨hpause n t s' ht hs', Nat.le_trans (Nat.le_of_eq ?_) (hpause n t s' ht hs')⟩
    rw [Nat.add_comm delay.nanos, ← Nat.add_assoc, Nat.add_sub_cancel' hst]
  · refine count_le_of_rises hkeeps.inTurn.sorted (fun n s s' hs hs' => ?_) t
    obtain ⟨t, ht, hst, -⟩ := hkeeps.inTurn.between hs hs'
    calc s ≤ t := hst
      _ < t + delay.nanos := Nat.lt_add_of_pos_right hpos
      _ ≤ s' := hpause n t s' ht hs'

theorem fixed_delay_ticking :
    (ticking (.fixedDelay ⟨40, by decide⟩)).startTimes 0 = [20, 200] ∧
    (ticking (.fixedDelay ⟨40, by decide⟩)).returnTimes 0 = [70, 200] ∧
    (ticking (.fixedDelay ⟨40, by decide⟩)).KeepsTime (.caller none) 0 [20, 110, 240] ∧
    (ticking (.fixedDelay ⟨40, by decide⟩)).Shows 0 240 := by
  have hok : (newPool.scheduleRepeating 0 "tick" (.fixedDelay ⟨40, by decide⟩) ⟨20, by decide⟩
    [.steps [.sleep ⟨50, by decide⟩], .steps []]).2 = .ok 0 := rfl
  have hdue : (ticking (.fixedDelay ⟨40, by decide⟩)).dueTimes (.fixedDelay ⟨40, by decide⟩) 20 0 =
    [20, 110, 240] := rfl
  obtain ⟨hkeeps, -⟩ := Strode.fixed_delay strode_newPool hok (strides_ticking _) hdue
    (by simp [Mark.Fits, Instant.limit, UInt64.size])
  exact ⟨rfl, rfl, hkeeps, hkeeps.shows 240 rfl⟩

end TimedTasks

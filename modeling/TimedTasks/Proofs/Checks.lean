import Mathlib.Data.Nat.Find
import TimedTasks.Time.Polling
/-!
Which checks are made when a condition is asked again and again. If no check came to hold they
would start at zero and then each an interval after the end of the one before; the waiting goes
through these until a check holds or starts at the timeout or later. Waiting with a deadline goes
through the same checks, as long as it goes well: what is in time for the deadline is in time for
the last check.
-/

namespace TimedTasks.Polling

variable {condition : Condition} {timeout interval : Duration} {n last : Nat} {t : Instant}

/-- A wait from a whole millisecond on, for whole milliseconds, ends exactly when it should. -/
theorem waitEnd_of_whole (ht : nanosPerMilli ∣ t) (hd : nanosPerMilli ∣ interval.nanos) :
    waitEnd t interval = t + interval.nanos :=
  Instant.ceilMilli_eq_self (Nat.dvd_add ht hd)

/-! ## The plan -/

/-- When the check of a given number starts if none before it comes to hold: the first at zero,
each other one an interval after the end of the one before. -/
def startOf (condition : Condition) (interval : Duration) : Nat → Instant
  | 0 => 0
  | n + 1 =>
    waitEnd (startOf condition interval n + (condition n (startOf condition interval n)).takes)
      interval

/-- What that check comes to. -/
def checkOf (condition : Condition) (interval : Duration) (n : Nat) : Check :=
  condition n (startOf condition interval n)

/-- When it ends. -/
def finishOf (condition : Condition) (interval : Duration) (n : Nat) : Instant :=
  startOf condition interval n + (checkOf condition interval n).takes

/-- When the checks before a given one start. -/
def startsBefore (condition : Condition) (interval : Duration) (n : Nat) : Array Instant :=
  (Array.range n).map (startOf condition interval)

/-- The result if the waiting ends with a given check. -/
def resultAt (condition : Condition) (interval : Duration) (n : Nat) : Result where
  holds := (checkOf condition interval n).holds
  starts := startsBefore condition interval (n + 1)
  finish := finishOf condition interval n

/-- Whether a check is the last that is made: the first to start at the timeout or later. -/
structure IsLast (condition : Condition) (timeout interval : Duration) (n : Nat) : Prop where
  late : timeout.nanos ≤ startOf condition interval n
  early : ∀ k < n, startOf condition interval k < timeout.nanos

/-- Whether a check is the first of the plan that holds. -/
structure IsFirst (condition : Condition) (interval : Duration) (n : Nat) : Prop where
  holds : (checkOf condition interval n).holds = true
  before : ∀ k < n, (checkOf condition interval k).holds = false

theorem first_or_none (condition : Condition) (interval : Duration) (last : Nat) :
    (∃ n ≤ last, IsFirst condition interval n) ∨
      ∀ n ≤ last, (checkOf condition interval n).holds = false := by
  by_cases hsome : ∃ n, n ≤ last ∧ (checkOf condition interval n).holds = true
  · obtain ⟨hle, hholds⟩ := Nat.find_spec hsome
    refine .inl ⟨Nat.find hsome, hle, hholds, fun k hk => ?_⟩
    have hnot := Nat.find_min hsome hk
    exact Bool.eq_false_iff.mpr fun hk' => hnot ⟨by omega, hk'⟩
  · exact .inr fun n hn => Bool.eq_false_iff.mpr fun hn' => hsome ⟨n, hn, hn'⟩

theorem startOf_succ (n : Nat) : startOf condition interval (n + 1) =
    waitEnd (finishOf condition interval n) interval :=
  rfl

@[simp] theorem startsBefore_zero : startsBefore condition interval 0 = #[] := by
  simp [startsBefore]

@[simp] theorem size_startsBefore (n : Nat) : (startsBefore condition interval n).size = n := by
  simp [startsBefore]

theorem startsBefore_succ (n : Nat) : startsBefore condition interval (n + 1) =
    (startsBefore condition interval n).push (startOf condition interval n) := by
  simp [startsBefore, Array.range_succ]

theorem dvd_startOf (n : Nat) : nanosPerMilli ∣ startOf condition interval n := by
  cases n with
  | zero => exact Nat.dvd_zero _
  | succ n => exact Instant.dvd_ceilMilli _

/-- Between whole milliseconds no time is lost to rounding. -/
theorem startOf_succ_of_whole (hi : nanosPerMilli ∣ interval.nanos)
    (hc : ∀ n, nanosPerMilli ∣ (checkOf condition interval n).takes) (n : Nat) :
    startOf condition interval (n + 1) = finishOf condition interval n + interval.nanos :=
  waitEnd_of_whole (Nat.dvd_add (dvd_startOf n) (hc n)) hi

theorem startOf_lt_succ (h : 0 < interval.nanos) (n : Nat) :
    startOf condition interval n < startOf condition interval (n + 1) :=
  calc startOf condition interval n ≤ finishOf condition interval n := Nat.le_add_right ..
    _ < finishOf condition interval n + interval.nanos := Nat.lt_add_of_pos_right h
    _ ≤ startOf condition interval (n + 1) := le_waitEnd ..

theorem le_startOf (h : 0 < interval.nanos) (n : Nat) : n ≤ startOf condition interval n := by
  induction n with
  | zero => exact Nat.zero_le _
  | succ n ih => exact Nat.lt_of_le_of_lt ih (startOf_lt_succ h n)

/-- The starts pass every timeout in the end, so one of the checks is the last. -/
theorem exists_isLast (condition : Condition) (timeout : Duration) (h : 0 < interval.nanos) :
    ∃ last, IsLast condition timeout interval last := by
  have hlate : ∃ n, timeout.nanos ≤ startOf condition interval n := ⟨_, le_startOf h _⟩
  exact ⟨Nat.find hlate, Nat.find_spec hlate, fun k hk => Nat.lt_of_not_le (Nat.find_min hlate hk)⟩

/-! ## The checks that are made -/

/-- The waiting ends with a check that holds, and with one that starts at the timeout or later. -/
theorem pollFrom_stop
    (h : (checkOf condition interval n).holds = true ∨
      timeout.nanos ≤ startOf condition interval n) :
    pollFrom condition timeout interval (startsBefore condition interval n)
      (startOf condition interval n) = some (resultAt condition interval n) := by
  rw [pollFrom, size_startsBefore, ← startsBefore_succ]
  rw [checkOf] at h
  cases hholds : (condition n (startOf condition interval n)).holds with
  | true => simp [resultAt, finishOf, checkOf, hholds]
  | false =>
    have hlate : timeout.nanos ≤ startOf condition interval n := h.resolve_left (by simp [hholds])
    simp [resultAt, finishOf, checkOf, hholds, hlate]

/-- Any other check is followed by the next one of the plan. -/
theorem pollFrom_step (h : 0 < interval.nanos)
    (hholds : (checkOf condition interval n).holds = false)
    (hearly : startOf condition interval n < timeout.nanos) :
    pollFrom condition timeout interval (startsBefore condition interval n)
      (startOf condition interval n) =
    pollFrom condition timeout interval (startsBefore condition interval (n + 1))
      (startOf condition interval (n + 1)) := by
  rw [pollFrom, size_startsBefore, ← startsBefore_succ]
  rw [checkOf] at hholds
  have hmoves : startOf condition interval n < startOf condition interval (n + 1) :=
    startOf_lt_succ h n
  rw [startOf_succ, finishOf, checkOf] at hmoves ⊢
  simp only [hholds, Bool.false_eq_true, if_false, if_neg (Nat.not_le.mpr hearly), if_pos hmoves]

/-- As long as no check holds and the timeout is not reached, the waiting follows the plan. -/
theorem pollUntil_eq_pollFrom (h : 0 < interval.nanos)
    (hgoes : ∀ k < n, (checkOf condition interval k).holds = false ∧
      startOf condition interval k < timeout.nanos) :
    pollUntil condition timeout interval =
      pollFrom condition timeout interval (startsBefore condition interval n)
        (startOf condition interval n) := by
  induction n with
  | zero => rw [startsBefore_zero]; rfl
  | succ n ih =>
    obtain ⟨hholds, hearly⟩ := hgoes n (Nat.lt_succ_self n)
    rw [ih fun k hk => hgoes k (Nat.lt_succ_of_lt hk), pollFrom_step h hholds hearly]

/-- The waiting ends with the first check that holds, or else with the last. -/
theorem pollUntil_eq_resultAt (h : 0 < interval.nanos)
    (hlast : IsLast condition timeout interval last) (hn : n ≤ last)
    (hbefore : ∀ k < n, (checkOf condition interval k).holds = false)
    (hstop : (checkOf condition interval n).holds = true ∨ n = last) :
    pollUntil condition timeout interval = some (resultAt condition interval n) := by
  rw [pollUntil_eq_pollFrom h fun k hk => ⟨hbefore k hk, hlast.early k (Nat.lt_of_lt_of_le hk hn)⟩]
  refine pollFrom_stop (hstop.imp_right ?_)
  rintro rfl
  exact hlast.late

theorem pollUntil_of_first (h : 0 < interval.nanos)
    (hlast : IsLast condition timeout interval last) (hn : n ≤ last)
    (hfirst : IsFirst condition interval n) :
    pollUntil condition timeout interval =
      some ⟨true, startsBefore condition interval (n + 1), finishOf condition interval n⟩ := by
  rw [pollUntil_eq_resultAt h hlast hn hfirst.before (.inl hfirst.holds), resultAt, hfirst.holds]

theorem pollUntil_of_none (h : 0 < interval.nanos)
    (hlast : IsLast condition timeout interval last)
    (hnone : ∀ n ≤ last, (checkOf condition interval n).holds = false) :
    pollUntil condition timeout interval =
      some ⟨false, startsBefore condition interval (last + 1),
        finishOf condition interval last⟩ := by
  have hlt : ∀ k < last, (checkOf condition interval k).holds = false :=
    fun k hk => hnone k (Nat.le_of_lt hk)
  rw [pollUntil_eq_resultAt h hlast (Nat.le_refl last) hlt (.inr rfl), resultAt,
    hnone last (Nat.le_refl last)]

theorem pollUntil_ends (condition : Condition) (timeout : Duration) (h : 0 < interval.nanos) :
    ∃ r, pollUntil condition timeout interval = some r := by
  obtain ⟨last, hlast⟩ := exists_isLast condition timeout h
  rcases first_or_none condition interval last with ⟨n, hn, hfirst⟩ | hnone
  · exact ⟨_, pollUntil_of_first h hlast hn hfirst⟩
  · exact ⟨_, pollUntil_of_none h hlast hnone⟩

theorem pollUntil_holds_iff (h : 0 < interval.nanos)
    (hlast : IsLast condition timeout interval last) :
    pollUntil condition timeout interval =
        some ⟨true, startsBefore condition interval (n + 1), finishOf condition interval n⟩ ↔
      n ≤ last ∧ IsFirst condition interval n := by
  refine ⟨fun hr => ?_, fun hn => pollUntil_of_first h hlast hn.1 hn.2⟩
  rcases first_or_none condition interval last with ⟨k, hk, hfirst⟩ | hnone
  · -- both results have as many starts as checks were made
    rw [pollUntil_of_first h hlast hk hfirst, Option.some.injEq, Result.mk.injEq] at hr
    have hsize := congrArg Array.size hr.2.1
    rw [size_startsBefore, size_startsBefore, Nat.add_right_cancel_iff] at hsize
    exact hsize ▸ ⟨hk, hfirst⟩
  · rw [pollUntil_of_none h hlast hnone] at hr
    cases hr

theorem pollUntil_fails_iff (h : 0 < interval.nanos)
    (hlast : IsLast condition timeout interval last) :
    pollUntil condition timeout interval =
        some ⟨false, startsBefore condition interval (last + 1),
          finishOf condition interval last⟩ ↔
      ∀ n ≤ last, (checkOf condition interval n).holds = false := by
  refine ⟨fun hr => ?_, pollUntil_of_none h hlast⟩
  rcases first_or_none condition interval last with ⟨k, hk, hfirst⟩ | hnone
  · rw [pollUntil_of_first h hlast hk hfirst] at hr
    cases hr
  · exact hnone

/-! ## Waiting with a deadline -/

/-- Where the deadline is less than an interval after the timeout, what comes to hold by the
deadline is asked for at the same times without it. -/
theorem pollFrom_eq_eventuallyFrom {deadline : Instant} {earlier : Array Instant} {start : Instant}
    (hd : deadline < timeout.nanos + tenMillis.nanos)
    (h : (eventuallyFrom condition deadline earlier start).holds = true) :
    pollFrom condition timeout tenMillis earlier start =
      some (eventuallyFrom condition deadline earlier start) := by
  fun_induction eventuallyFrom condition deadline earlier start with
  | case1 => cases h
  | case2 earlier start check starts finish hin hholds =>
    rw [pollFrom]
    exact if_pos hholds
  | case3 => cases h
  | case4 earlier start check starts finish hin hholds hnext ih =>
    -- the next check is in time, so this one starts an interval before the deadline or earlier
    have hlater : start + tenMillis.nanos ≤ deadline :=
      calc start + tenMillis.nanos ≤ finish + tenMillis.nanos :=
            Nat.add_le_add_right (Nat.le_add_right ..) _
        _ ≤ waitEnd finish tenMillis := le_waitEnd ..
        _ ≤ deadline := Nat.le_of_not_lt hnext
    have hearly : ¬ timeout.nanos ≤ start := fun hlate =>
      Nat.not_lt.mpr (Nat.add_le_add_right hlate tenMillis.nanos) (Nat.lt_of_le_of_lt hlater hd)
    have hmoves : start < waitEnd finish tenMillis :=
      Nat.lt_of_le_of_lt (Nat.le_add_right ..) (lt_waitEnd_tenMillis finish)
    rw [pollFrom]
    simp only [if_neg hearly]
    rw [if_neg hholds, if_pos hmoves]
    exact ih h

theorem pollUntil_eq_eventually (h : (eventually condition timeout).holds = true) :
    pollUntil condition timeout tenMillis = some (eventually condition timeout) := by
  refine pollFrom_eq_eventuallyFrom ?_ h
  calc waitEnd 0 timeout < 0 + timeout.nanos + nanosPerMilli := Instant.ceilMilli_lt _
    _ ≤ timeout.nanos + tenMillis.nanos := by
      rw [Nat.zero_add]
      exact Nat.add_le_add_left (by decide) _

/-! ## Both ways to wait -/

/-- Asking until a condition holds comes to an end. The checks are those of the plan, which starts
at zero and goes on an interval after each check, up to the first that starts at the timeout or
later. The condition is said to hold at the end of the first of these that holds, and not to hold
exactly if none of them does. Waiting with a deadline, if it succeeds, has made the same checks at
the same times, and this whether or not the condition would have gone on to hold. -/
theorem asks_by_plan (condition : Condition) (timeout interval : Duration)
    (h : 0 < interval.nanos) :
    (startOf condition interval 0 = 0 ∧
      (nanosPerMilli ∣ interval.nanos →
        (∀ n, nanosPerMilli ∣ (checkOf condition interval n).takes) →
        ∀ n, startOf condition interval (n + 1) =
          finishOf condition interval n + interval.nanos)) ∧
    (∃ r, pollUntil condition timeout interval = some r) ∧
    (∃ last, IsLast condition timeout interval last ∧
      (∀ n, pollUntil condition timeout interval =
          some ⟨true, startsBefore condition interval (n + 1), finishOf condition interval n⟩ ↔
        n ≤ last ∧ IsFirst condition interval n) ∧
      (pollUntil condition timeout interval =
          some ⟨false, startsBefore condition interval (last + 1),
            finishOf condition interval last⟩ ↔
        ∀ n ≤ last, (checkOf condition interval n).holds = false)) ∧
    ((eventually condition timeout).holds = true →
      pollUntil condition timeout tenMillis = some (eventually condition timeout)) := by
  obtain ⟨last, hlast⟩ := exists_isLast condition timeout h
  refine ⟨⟨rfl, startOf_succ_of_whole⟩, pollUntil_ends condition timeout h,
    ⟨last, hlast, fun n => ?_, ?_⟩, pollUntil_eq_eventually⟩
  · exact pollUntil_holds_iff h hlast
  · exact pollUntil_fails_iff h hlast

/-- A condition that takes 20 ms for each answer and holds from 50 ms on. -/
def slowFlag : Condition := .flipping (some (.ofMillis 20)) (some (.ofMillis 50))

/-- With 25 ms in between the second check is the first that holds, and starts before the timeout
but ends after it; with 10 ms in between it ends at the deadline, and is in time. -/
theorem asks_by_plan_slowFlag :
    0 < (Duration.ofMillis 25).nanos ∧
    (∀ n, startOf slowFlag (.ofMillis 25) (n + 1) =
      finishOf slowFlag (.ofMillis 25) n + (Duration.ofMillis 25).nanos) ∧
    pollUntil slowFlag (.ofMillis 50) (.ofMillis 25) =
      some ⟨true, #[0, 45000000], 65000000⟩ ∧
    (eventually slowFlag (.ofMillis 50)).holds = true ∧
    pollUntil slowFlag (.ofMillis 50) tenMillis = some ⟨true, #[0, 30000000], 50000000⟩ := by
  obtain ⟨⟨-, hplan⟩, -, ⟨last, hlast, hholds, -⟩, hsame⟩ :=
    asks_by_plan slowFlag (.ofMillis 50) (.ofMillis 25) (by decide)
  have hpos : 1 ≤ last := by
    refine Nat.pos_of_ne_zero ?_
    rintro rfl
    exact absurd hlast.late (by decide)
  have hstarts : startsBefore slowFlag (.ofMillis 25) 2 = #[0, 45000000] := by cbv
  have hfinish : finishOf slowFlag (.ofMillis 25) 1 = 65000000 := by decide
  have hin : eventually slowFlag (.ofMillis 50) = ⟨true, #[0, 30000000], 50000000⟩ := by cbv
  refine ⟨by decide, hplan (by decide) fun n => ?_, ?_, by rw [hin], ?_⟩
  · exact Nat.dvd_sub (Instant.dvd_ceilMilli _) (dvd_startOf n)
  · rw [← hstarts, ← hfinish, hholds 1]
    exact ⟨hpos, by decide, by decide⟩
  · rw [← hin]
    exact hsame (by rw [hin])

end TimedTasks.Polling

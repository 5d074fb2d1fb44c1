import TimedTasks.Proofs.Conversion
import TimedTasks.Proofs.DueTimes
import TimedTasks.Proofs.Passage
/-!
Delays and due times tell the same. A delay is counted from now, so it shrinks as the clock moves
on, below zero once the task is overdue; the order of two tasks by their due times is that of their
delays at any time, as long as both are in range.
-/

namespace TimedTasks

variable {V : Type}

theorem compare_sub_sub (s t k : Nat) :
    compare ((s : Int) - k) ((t : Int) - k) = compare s t := by
  show compareOfLessAndEq _ _ = compareOfLessAndEq _ _
  have hlt : (s : Int) - k < (t : Int) - k ↔ s < t := by omega
  have heq : (s : Int) - k = (t : Int) - k ↔ s = t := by omega
  simp only [compareOfLessAndEq, hlt, heq]

/-- The way from one point in time to another, on either side, fits 128 bits. -/
theorem wide_gap {k t : Nat} (hk : k < Duration.limit) (ht : t < Instant.limit) :
    (if k ≤ t then wide (t - k) else -wide (k - t)) = (t : Int) - k := by
  unfold Duration.limit UInt64.size at hk
  unfold Instant.limit at ht
  split
  · rw [wide_eq_self (by unfold wideMax; omega)]
    omega
  · rw [wide_eq_self (by unfold wideMax; omega)]
    omega

namespace World

/-- Whether a future shows a due time, to which its mark was set. -/
def IsDue (w : World V) (name : String) (t : Instant) : Prop :=
  ∃ h origin, w.timed name = .ok (h, .ofInstant origin t) ∧ origin ≤ t ∧ Mark.Fits origin t

/-- Whether a future answers how long it is until it is due. -/
def Tells (w : World V) (name : String) (u : TimeUnit) (n : Int) : Prop :=
  w.perform (.delay name (some u)) = (w, .delay n)

/-- Whether two futures compare in some way. -/
def Compares (w : World V) (a b : String) (c : Comparison) : Prop :=
  w.perform (.compare a b) = (w, .comparison c)

/-- Whether a future compares in some way with something of which only a delay is known. -/
def ComparesFixed (w : World V) (a : String) (n : Int) (o : Ordering) : Prop :=
  w.perform (.compareFixed a n .nanoseconds none) = (w, .order o)

/-- Whether a future does not come after another one. -/
def NotAfter (w : World V) (a b : String) : Prop := ∃ c, w.Compares a b c ∧ c.order ≠ .gt

variable {w w' : World V} {a b : String} {s t : Instant} {u : TimeUnit} {n : Int}

theorem delayNanos_eq {m : Mark} (h : m.due < Instant.limit) :
    w.delayNanos m = (m.due : Int) - w.now :=
  wide_gap w.clock.elapsed.nanos_lt h

theorem IsDue.timed (h : w.IsDue a s) :
    ∃ x m, w.timed a = .ok (x, m) ∧ m.due = s ∧ s < Instant.limit := by
  obtain ⟨x, origin, htimed, ho, hfits⟩ := h
  exact ⟨x, _, htimed, Mark.due_ofInstant ho hfits, hfits.1⟩

theorem IsDue.shows (h : w.IsDue a s) : w.perform (.dueTime a) = (w, .time s) := by
  obtain ⟨x, m, htimed, rfl, -⟩ := h.timed
  rw [perform, htimed]
  rfl

theorem IsDue.tells_iff (h : w.IsDue a s) : w.Tells a u n ↔ n = u.ofNanos ((s : Int) - w.now) := by
  obtain ⟨x, m, htimed, rfl, hlt⟩ := h.timed
  have hp : w.perform (.delay a (some u)) = (w, .delay (u.ofNanos ((m.due : Int) - w.now))) := by
    rw [perform, htimed, ← delayNanos_eq hlt]
    rfl
  rw [Tells, hp]
  simp [eq_comm]

theorem IsDue.compares (ha : w.IsDue a s) (hb : w.IsDue b t) :
    ∃ alike, w.Compares a b ⟨compare s t, s == t, compare s t, alike⟩ := by
  obtain ⟨x, m, hx, rfl, -⟩ := ha.timed
  obtain ⟨y, k, hy, rfl, -⟩ := hb.timed
  refine ⟨(x.kind == .periodic) == (y.kind == .periodic), ?_⟩
  rw [Compares, perform, compareFutures, hx]
  simp only [bind, Except.bind, hy]
  rfl

theorem IsDue.comparesFixed (ha : w.IsDue a s) (hn : IsAmount n) :
    w.ComparesFixed a n (compare (TimeUnit.nanoseconds.ofNanos ((s : Int) - w.now)) n) := by
  obtain ⟨x, m, hx, rfl, hlt⟩ := ha.timed
  rw [ComparesFixed, perform, compareFixed, hx, TimeUnit.convert_self hn, ← delayNanos_eq hlt]
  rfl

theorem IsDue.notAfter_iff (ha : w.IsDue a s) (hb : w.IsDue b t) : w.NotAfter a b ↔ s ≤ t := by
  obtain ⟨alike, hc⟩ := ha.compares hb
  constructor
  · rintro ⟨c, hc', hne⟩
    obtain rfl : c = _ := by simpa using (Prod.mk.inj (hc'.symm.trans hc)).2
    exact Nat.compare_ne_gt.mp hne
  · intro hle
    exact ⟨_, hc, Nat.compare_ne_gt.mpr hle⟩

theorem ofNanos_nanoseconds {n : Int} (h : IsAmount n) : TimeUnit.nanoseconds.ofNanos n = n := by
  show clampAmount (n.tdiv 1) = n
  rw [Int.tdiv_one, clampAmount_eq_self h]

/-- A delay that is still counted down never grows. -/
theorem IsDue.tells_le (h : w.IsDue a s) (h' : w'.IsDue a s) (hnow : w.now ≤ w'.now) {n' : Int}
    (hn : w.Tells a u n) (hn' : w'.Tells a u n') : n' ≤ n := by
  rw [h.tells_iff.mp hn, h'.tells_iff.mp hn']
  exact u.ofNanos_mono (Int.sub_le_sub_left (Int.ofNat_le.mpr hnow) _)

/-- In range, two delays compare as the due times do. -/
theorem IsDue.comparesFixed_delay (ha : w.IsDue a s) (hb : w.IsDue b t)
    (hs : IsAmount ((s : Int) - w.now)) (ht : IsAmount ((t : Int) - w.now))
    (hn : w.Tells b .nanoseconds n) : w.ComparesFixed a n (compare s t) := by
  obtain rfl : n = (t : Int) - w.now := by rw [hb.tells_iff.mp hn, ofNanos_nanoseconds ht]
  have hc := ha.comparesFixed ht
  rw [ofNanos_nanoseconds hs, compare_sub_sub] at hc
  exact hc

/-- A future tells how long it is until it is due, exactly but for the fraction of a unit and the
range of amounts, and ever less as the clock moves on. The futures are in the order of their due
times, in which those that are due at once are tied; and as long as their delays are in range, the
delay of one of them is enough to put the other in its place. -/
theorem IsDue.delays_and_order (ha : w.IsDue a s) (hb : w.IsDue b t) :
    (w.perform (.dueTime a) = (w, .time s) ∧
      ∀ u : TimeUnit, ∃ q : Int, IsTruncated ((s : Int) - w.now) u.nanos (q * u.nanos) ∧
        w.Tells a u (clampAmount q)) ∧
    (∀ w' : World V, w'.IsDue a s → w.now ≤ w'.now →
      ∀ u n n', w.Tells a u n → w'.Tells a u n' → n' ≤ n ∧
        (u = .nanoseconds → IsAmount ((s : Int) - w.now) → IsAmount ((s : Int) - w'.now) →
          n - n' = (w'.now : Int) - w.now)) ∧
    (w.NotAfter a a ∧ (w.NotAfter a b ∨ w.NotAfter b a) ∧
      ∀ c r, w.IsDue c r → w.NotAfter a b → w.NotAfter b c → w.NotAfter a c) ∧
    ∃ c, w.Compares a b c ∧ c.order = compare s t ∧ c.delayed = c.order ∧
      (c.same = true ↔ w.NotAfter a b ∧ w.NotAfter b a) ∧
      (IsAmount ((s : Int) - w.now) → IsAmount ((t : Int) - w.now) →
        ∀ n, w.Tells b .nanoseconds n → w.ComparesFixed a n c.order) := by
  refine ⟨⟨ha.shows, fun u => ⟨_, isTruncated_tdiv_mul _ u.nanos_pos, ha.tells_iff.mpr rfl⟩⟩,
    fun w' h' hnow u n n' hn hn' => ⟨ha.tells_le h' hnow hn hn', ?_⟩, ⟨?_, ?_, ?_⟩, ?_⟩
  · rintro rfl hs hs'
    rw [ha.tells_iff.mp hn, h'.tells_iff.mp hn', ofNanos_nanoseconds hs, ofNanos_nanoseconds hs']
    omega
  · exact (ha.notAfter_iff ha).mpr (Nat.le_refl s)
  · rw [ha.notAfter_iff hb, hb.notAfter_iff ha]
    exact Nat.le_total s t
  · intro c r hc
    rw [ha.notAfter_iff hb, hb.notAfter_iff hc, ha.notAfter_iff hc]
    exact Nat.le_trans
  · obtain ⟨alike, hc⟩ := ha.compares hb
    refine ⟨_, hc, rfl, rfl, ?_, fun hs ht n hn => ha.comparesFixed_delay hb hs ht hn⟩
    rw [ha.notAfter_iff hb, hb.notAfter_iff ha, beq_iff_eq]
    exact Nat.le_antisymm_iff

/-- Two executors of different age, with a task each. -/
def twoPools : World Nat :=
  (World.start true).after
    [.call (.create "old" none none none none), .advance (.ofMillis 3),
      .call (.create "new" none none none none),
      .call (.schedule "old" "soon" (.ofMillis 4) (.steps [])),
      .call (.schedule "new" "late" (.ofMillis 37) (.steps []))]

/-- The same executors when one task is overdue. -/
def twoPoolsLater : World Nat := twoPools.after [.advance (.ofMillis 20)]

theorem delays_and_order_twoPools :
    (twoPools.IsDue "soon" 7000000 ∧ twoPools.IsDue "late" 40000000) ∧
    (twoPoolsLater.IsDue "soon" 7000000 ∧ twoPoolsLater.IsDue "late" 40000000) ∧
    (∀ n n', twoPools.Tells "soon" .microseconds n → twoPoolsLater.Tells "soon" .microseconds n' →
      n' ≤ n) ∧
    (twoPools.NotAfter "soon" "late" ∨ twoPools.NotAfter "late" "soon") ∧
    twoPools.ComparesFixed "soon" 37000000 .lt ∧
    twoPoolsLater.ComparesFixed "late" (-16000000) .gt := by
  have hsoon : twoPools.IsDue "soon" 7000000 :=
    ⟨⟨0, .delayed⟩, 0, rfl, by decide, by decide, by decide⟩
  have hlate : twoPools.IsDue "late" 40000000 :=
    ⟨⟨1, .delayed⟩, 3000000, rfl, by decide, by decide, by decide⟩
  have hsoon' : twoPoolsLater.IsDue "soon" 7000000 :=
    ⟨⟨0, .delayed⟩, 0, rfl, by decide, by decide, by decide⟩
  have hlate' : twoPoolsLater.IsDue "late" 40000000 :=
    ⟨⟨1, .delayed⟩, 3000000, rfl, by decide, by decide, by decide⟩
  obtain ⟨-, hless, ⟨-, htotal, -⟩, c, -, horder, -, -, hfixed⟩ := hsoon.delays_and_order hlate
  obtain ⟨-, -, -, c', -, horder', -, -, hfixed'⟩ := hlate'.delays_and_order hsoon'
  rw [horder] at hfixed
  rw [horder'] at hfixed'
  refine ⟨⟨hsoon, hlate⟩, ⟨hsoon', hlate'⟩, fun n n' hn hn' => ?_, htotal,
    hfixed (by decide) (by decide) _ (hlate.tells_iff.mpr rfl),
    hfixed' (by decide) (by decide) _ (hsoon'.tells_iff.mpr rfl)⟩
  exact (hless _ hsoon' (by decide) _ _ _ hn hn').1

end World

end TimedTasks

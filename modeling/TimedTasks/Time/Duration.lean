/-!
Lengths and points of time, both counted in whole nanoseconds.

A `Duration` is shorter than `2^64` seconds. An `Instant` is counted from a fixed moment, in a run
from the start of its clock; instants from `Instant.limit` on cannot be represented. Sums that leave
these ranges are `none`, never wrapped. Nanoseconds that may be negative are counted in 128 bits.
-/

namespace TimedTasks

def nanosPerSecond : Nat := 1000000000

def nanosPerMilli : Nat := 1000000

/-- The greatest signed 128-bit integer. -/
def wideMax : Int := 170141183460469231731687303715884105727

/-- Whether an integer fits a signed 128-bit word. -/
def IsWide (n : Int) : Prop := -wideMax - 1 ≤ n ∧ n ≤ wideMax

instance (n : Int) : Decidable (IsWide n) := inferInstanceAs (Decidable (_ ∧ _))

/-- A number of nanoseconds as a signed 128-bit integer, or the greatest one where it does not
fit. -/
def wide (n : Nat) : Int := min n wideMax

theorem wide_eq_self {n : Nat} (h : (n : Int) ≤ wideMax) : wide n = n := Int.min_eq_left h

/-- The least number of nanoseconds that is too long for a `Duration`. -/
def Duration.limit : Nat := UInt64.size * 1000000000

/-- A length of time. -/
structure Duration where
  nanos : Nat
  nanos_lt : nanos < Duration.limit
deriving DecidableEq

namespace Duration

def zero : Duration := ⟨0, by decide⟩

/-- The longest duration. -/
def longest : Duration := ⟨UInt64.size * 1000000000 - 1, by decide⟩

instance : Inhabited Duration := ⟨zero⟩

def ofNanos? (n : Nat) : Option Duration :=
  if h : n < limit then some ⟨n, h⟩ else none

/-- The duration of `n` nanoseconds, or the longest one where that is too long. -/
def ofNanosClamped (n : Nat) : Duration :=
  if h : n < limit then ⟨n, h⟩ else longest

/-- Milliseconds that fit a 64-bit word always make a duration. -/
def ofMillis (ms : UInt64) : Duration :=
  ⟨ms.toNat * 1000000, by have := ms.toNat_lt; unfold limit UInt64.size; omega⟩

/-- Whole seconds, as many as fit a 64-bit word, and less than a second more. -/
def ofSeconds (seconds : UInt64) (subsec : Nat) (h : subsec < nanosPerSecond) : Duration :=
  ⟨seconds.toNat * nanosPerSecond + subsec, by
    have := seconds.toNat_lt
    unfold nanosPerSecond at *
    unfold limit UInt64.size
    omega⟩

/-- The whole seconds of a duration; `subsecNanos` is what is left over. -/
def seconds (d : Duration) : Nat := d.nanos / nanosPerSecond

def subsecNanos (d : Duration) : Nat := d.nanos % nanosPerSecond

def isZero (d : Duration) : Bool := d.nanos == 0

def add? (a b : Duration) : Option Duration := ofNanos? (a.nanos + b.nanos)

instance : LE Duration := ⟨fun a b => a.nanos ≤ b.nanos⟩
instance : LT Duration := ⟨fun a b => a.nanos < b.nanos⟩

instance (a b : Duration) : Decidable (a ≤ b) := inferInstanceAs (Decidable (a.nanos ≤ b.nanos))
instance (a b : Duration) : Decidable (a < b) := inferInstanceAs (Decidable (a.nanos < b.nanos))

theorem ofNanos?_eq_some_iff {n : Nat} {d : Duration} : ofNanos? n = some d ↔ d.nanos = n := by
  obtain ⟨m, hm⟩ := d
  simp only [ofNanos?, Option.dite_none_right_eq_some, Option.some.injEq, mk.injEq]
  constructor
  · rintro ⟨_, rfl⟩
    rfl
  · rintro rfl
    exact ⟨hm, rfl⟩

end Duration

/-- A point in time: nanoseconds since a fixed moment. -/
abbrev Instant := Nat

namespace Instant

/-- The first point in time that cannot be represented, `2^63` seconds after that moment. -/
def limit : Nat := 9223372036854775808 * 1000000000

/-- The instant `d` after `t`, where it can be represented. -/
def after? (t : Instant) (d : Duration) : Option Instant :=
  if t + d.nanos < limit then some (t + d.nanos) else none

/-- The first whole millisecond not before `t`. -/
def ceilMilli (t : Instant) : Instant := (t + (nanosPerMilli - 1)) / nanosPerMilli * nanosPerMilli

theorem le_ceilMilli (t : Nat) : t ≤ ceilMilli t := by
  unfold ceilMilli nanosPerMilli
  omega

theorem ceilMilli_lt (t : Nat) : ceilMilli t < t + nanosPerMilli :=
  calc ceilMilli t ≤ t + (nanosPerMilli - 1) := Nat.div_mul_le_self ..
    _ < t + nanosPerMilli := Nat.add_lt_add_left (by decide) t

theorem dvd_ceilMilli (t : Nat) : nanosPerMilli ∣ ceilMilli t := Nat.dvd_mul_left ..

theorem ceilMilli_eq_self {t : Nat} (h : nanosPerMilli ∣ t) : ceilMilli t = t := by
  show (t + (nanosPerMilli - 1)) / nanosPerMilli * nanosPerMilli = t
  unfold nanosPerMilli at *
  omega

theorem after?_eq_some {t u : Instant} {d : Duration} (h : after? t d = some u) :
    u = t + d.nanos := by
  simp only [after?, Option.ite_none_right_eq_some, Option.some.injEq] at h
  exact h.2.symm

end Instant

end TimedTasks

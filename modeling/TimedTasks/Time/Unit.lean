import TimedTasks.Time.Duration
/-!
Units of time and amounts in them.

An amount is an integer that fits a signed 64-bit word. A conversion to a coarser unit drops the
fraction, toward zero; a result that does not fit is replaced by the nearest amount that does.
-/

namespace TimedTasks

/-- A unit of time, from the finest to the coarsest. -/
inductive TimeUnit where
  | nanoseconds | microseconds | milliseconds | seconds | minutes | hours | days
deriving DecidableEq, Repr

/-- The least and the greatest amount. -/
def amountMin : Int := -9223372036854775808

def amountMax : Int := 9223372036854775807

/-- Whether an integer is an amount. -/
def IsAmount (a : Int) : Prop := amountMin ≤ a ∧ a ≤ amountMax

instance (a : Int) : Decidable (IsAmount a) := inferInstanceAs (Decidable (_ ∧ _))

/-- The amount nearest to an integer. -/
def clampAmount (a : Int) : Int := max amountMin (min a amountMax)

theorem isAmount_clampAmount (a : Int) : IsAmount (clampAmount a) := by
  unfold IsAmount clampAmount amountMin amountMax
  omega

theorem clampAmount_eq_self {a : Int} (h : IsAmount a) : clampAmount a = a := by
  unfold IsAmount amountMin amountMax at h
  unfold clampAmount amountMin amountMax
  omega

namespace TimeUnit

/-- Every unit, the finest first. -/
def all : List TimeUnit :=
  [.nanoseconds, .microseconds, .milliseconds, .seconds, .minutes, .hours, .days]

theorem mem_all (u : TimeUnit) : u ∈ all := by
  cases u <;> decide

/-- The nanoseconds in one unit. -/
def nanos : TimeUnit → Nat
  | nanoseconds => 1
  | microseconds => 1000
  | milliseconds => 1000000
  | seconds => 1000000000
  | minutes => 60 * 1000000000
  | hours => 60 * (60 * 1000000000)
  | days => 24 * (60 * (60 * 1000000000))

theorem nanos_pos (u : TimeUnit) : 0 < u.nanos := by
  cases u <;> decide

/-- The finer of two units is the lesser. -/
def compare (a b : TimeUnit) : Ordering := Ord.compare a.ctorIdx b.ctorIdx

/-- The nanoseconds in `amount` of this unit. -/
def worth (u : TimeUnit) (amount : Int) : Int := amount * u.nanos

/-- A signed number of nanoseconds in this unit. -/
def ofNanos (u : TimeUnit) (n : Int) : Int := clampAmount (n.tdiv u.nanos)

/-- `amount` of the unit `source` in this unit. -/
def convert (u : TimeUnit) (amount : Int) (source : TimeUnit) : Int :=
  u.ofNanos (source.worth amount)

/-- A duration in this unit. -/
def ofDuration (u : TimeUnit) (d : Duration) : Int := u.ofNanos (wide d.nanos)

/-- `amount` of this unit as a duration: nothing for a negative amount, and the longest duration
where the whole seconds do not fit their word. -/
def toDuration (u : TimeUnit) (amount : Int) : Duration :=
  if amount ≤ 0 then .zero
  else
    let n := (u.worth amount).toNat
    if h : n / nanosPerSecond < UInt64.size then
      .ofSeconds (.ofNatLT (n / nanosPerSecond) h) (n % nanosPerSecond) (Nat.mod_lt _ (by decide))
    else .longest

/-- `amount` of this unit in every unit, the finest first. -/
def toAll (u : TimeUnit) (amount : Int) : List Int := all.map fun v => v.convert amount u

end TimeUnit

end TimedTasks

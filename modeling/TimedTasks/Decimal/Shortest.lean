import TimedTasks.Decimal.Binary
/-!
The shortest decimal that reads back as a given binary number.

The reals that round to `m * 2 ^ e` form an interval around it, whose ends belong to it when `m` is
even. For one digit, two digits, and so on, the two neighbours of the number on that decimal grid
are tried; the first grid with a neighbour inside the interval gives the answer, the nearer one if
both are inside.
-/

namespace TimedTasks.Decimal

/-- The decimal `digits * 10 ^ exponent`. -/
structure Numeral where
  digits : Nat
  exponent : Int
deriving DecidableEq, Repr

/-- The ends of the interval that rounds to a number, and the number itself, in quarters of its
last place. Below a power of two the places are half as wide. -/
structure Interval where
  low : Nat
  mid : Nat
  high : Nat
  /-- The exponent of two of a quarter place. -/
  exponent : Int
  closed : Bool

def Binary.interval (x : Binary) : Interval where
  low := 4 * x.mantissa - (if x.mantissa = Nat.pow 2 52 then 1 else 2)
  mid := 4 * x.mantissa
  high := 4 * x.mantissa + 2
  exponent := x.exponent - 2
  closed := x.mantissa % 2 == 0

/-- `d * 10 ^ q` and `n * 2 ^ e` on a common integral scale. -/
def onScale (d : Nat) (q : Int) (n : Nat) (e : Int) : Nat × Nat :=
  (d * Nat.pow 10 q.toNat * Nat.pow 2 (-e).toNat, n * Nat.pow 2 e.toNat * Nat.pow 10 (-q).toNat)

namespace Interval

/-- Whether `d * 10 ^ q` lies in the interval. -/
def contains (i : Interval) (d : Nat) (q : Int) : Bool :=
  let (x, low) := onScale d q i.low i.exponent
  let high := (onScale d q i.high i.exponent).2
  if i.closed then low ≤ x && x ≤ high else low < x && x < high

/-- The distance of `d * 10 ^ q` from the middle. -/
def distance (i : Interval) (d : Nat) (q : Int) : Nat :=
  let (x, mid) := onScale d q i.mid i.exponent
  (x - mid) + (mid - x)

/-- The multiple of `10 ^ q` at or below the middle, in units of `10 ^ q`. -/
def floor (i : Interval) (q : Int) : Nat :=
  let (unit, mid) := onScale 1 q i.mid i.exponent
  mid / unit

/-- The neighbour of the middle on the grid of `10 ^ q` that lies in the interval. -/
def onGrid? (i : Interval) (q : Int) : Option Nat :=
  let d := i.floor q
  let nearer :=
    i.distance d q < i.distance (d + 1) q ∨ (i.distance d q = i.distance (d + 1) q ∧ d % 2 = 0)
  match i.contains d q, i.contains (d + 1) q with
  | true, true => if nearer then some d else some (d + 1)
  | true, false => some d
  | false, true => some (d + 1)
  | false, false => none

end Interval

/-- The exponent of ten of the first digit of `num / den`, found by trial from above. -/
def leadingExponent (num den : Nat) : (tries : Nat) → Int → Int
  | 0, q => q
  | tries + 1, q =>
    if den * Nat.pow 10 q.toNat ≤ num * Nat.pow 10 (-q).toNat then q
    else leadingExponent num den tries (q - 1)

/-- A decimal without zeros at its end. -/
def Numeral.stripped : (places : Nat) → Numeral → Numeral
  | 0, d => d
  | places + 1, d =>
    if d.digits ≠ 0 ∧ d.digits % 10 = 0 then stripped places ⟨d.digits / 10, d.exponent + 1⟩
    else d

/-- The shortest decimal that rounds to a number, of those the nearest. -/
def Binary.shortest (x : Binary) : Numeral :=
  if x.mantissa = 0 then ⟨0, 0⟩
  else
    let i := x.interval
    let (num, den) := x.fraction
    let first := leadingExponent num den (num.log2 + den.log2 + 2) (num.log2 + 1)
    let grids := (List.range 18).map fun n : Nat => first - (n : Int)
    match grids.findSome? fun q => (i.onGrid? q).map fun d => (⟨d, q⟩ : Numeral) with
    | some d => d.stripped 18
    | none => ⟨0, 0⟩

end TimedTasks.Decimal

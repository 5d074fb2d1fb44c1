import TimedTasks.Time.Duration
/-!
How a duration reads in messages: a decimal number of the coarsest of seconds, milliseconds,
microseconds and nanoseconds of which there is at least one, exact, without trailing zeros
(`1.5s`, `1.000001ms`, `2.5µs`, `0ns`).
-/

namespace TimedTasks

/-- The `width` lowest decimal digits of a number, the highest first. -/
def lowDigits : (width : Nat) → Nat → List Char
  | 0, _ => []
  | width + 1, n => lowDigits width (n / 10) ++ [Nat.digitChar (n % 10)]

/-- A decimal fraction of `width` places with its point, or nothing where it is zero. -/
def fractionText (width n : Nat) : List Char :=
  match ((lowDigits width n).reverse.dropWhile (· == '0')).reverse with
  | [] => []
  | digits => '.' :: digits

/-- `n` parts of which `10 ^ width` make one unit, as a decimal number of units. -/
def decimalText (width n : Nat) : List Char :=
  (toString (n / Nat.pow 10 width)).toList ++ fractionText width (n % Nat.pow 10 width)

namespace Duration

def text (d : Duration) : String :=
  if nanosPerSecond ≤ d.nanos then String.ofList (decimalText 9 d.nanos) ++ "s"
  else if nanosPerMilli ≤ d.nanos then String.ofList (decimalText 6 d.nanos) ++ "ms"
  else if 1000 ≤ d.nanos then String.ofList (decimalText 3 d.nanos) ++ "µs"
  else toString d.nanos ++ "ns"

end Duration

end TimedTasks

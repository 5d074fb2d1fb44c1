import TimedTasks.Toml.Alphabet
/-!
The words that are TOML dates and times: a day, a time of day, or both with or without the distance
from universal time. The day must be in the calendar and the time on the clock.
-/

namespace TimedTasks.Toml

/-- The number that `width` decimal digits add to those already read. -/
def digitsNumber : (width value : Nat) → Reader Nat
  | 0, value, s => some (value, s)
  | _ + 1, _, [] => none
  | width + 1, value, c :: s =>
    if c.isDigit then digitsNumber width (10 * value + (c.toNat - 48)) s else none

/-- The text after a character with which it must begin. -/
def after? (c : Char) : List Char → Option (List Char)
  | a :: s => if a = c then some s else none
  | [] => none

/-- A number of two digits, at least `least` and at most `most`. -/
def twoDigits (least most : Nat) : Reader Nat := fun s => do
  let (n, r) ← digitsNumber 2 0 s
  if least ≤ n ∧ n ≤ most then some (n, r) else none

def isLeapYear (year : Nat) : Bool := year % 4 == 0 && (year % 100 != 0 || year % 400 == 0)

def daysInMonth (year month : Nat) : Nat :=
  if month = 2 then (if isLeapYear year then 29 else 28)
  else if month = 4 ∨ month = 6 ∨ month = 9 ∨ month = 11 then 30
  else 31

/-- What follows the year, the month and the day. -/
def afterDay? (s : List Char) : Option (List Char) := do
  let (year, s) ← digitsNumber 4 0 s
  let s ← after? '-' s
  let (month, s) ← twoDigits 1 12 s
  let s ← after? '-' s
  let (_, s) ← twoDigits 1 (daysInMonth year month) s
  some s

/-- What follows a fraction of a second, if there is one. -/
def afterFraction? : List Char → Option (List Char)
  | '.' :: c :: s => if c.isDigit then some (s.dropWhile Char.isDigit) else none
  | ['.'] => none
  | s => some s

/-- What follows hours and minutes. -/
def afterMinutes? (s : List Char) : Option (List Char) := do
  let (_, s) ← twoDigits 0 23 s
  let s ← after? ':' s
  let (_, s) ← twoDigits 0 59 s
  some s

/-- What follows the time of day. Its seconds may be left out. -/
def afterTime? (s : List Char) : Option (List Char) :=
  match afterMinutes? s with
  | some (':' :: s) => (twoDigits 0 60 s).bind fun p => afterFraction? p.2
  | r => r

/-- The distance from universal time: none, zero, or hours and minutes to either side. -/
def isOffset : List Char → Bool
  | [] => true
  | ['Z'] => true
  | ['z'] => true
  | c :: s => (c == '+' || c == '-') && afterMinutes? s == some []

/-- What may follow a day: nothing, or a time with its offset. -/
def isTimeOfDay : List Char → Bool
  | [] => true
  | c :: s => (c == 'T' || c == 't' || c == ' ') && (afterTime? s).any isOffset

def isMoment (s : List Char) : Bool :=
  (afterDay? s).any isTimeOfDay || afterTime? s == some []

end TimedTasks.Toml

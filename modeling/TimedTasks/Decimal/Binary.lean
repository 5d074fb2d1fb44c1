/-!
Numbers with a binary mantissa of 53 bits, and the one nearest to a quotient.
-/

namespace TimedTasks.Decimal

/-- The number `mantissa * 2 ^ exponent`. -/
structure Binary where
  mantissa : Nat
  exponent : Int
deriving DecidableEq, Repr

namespace Binary

def zero : Binary := ⟨0, 0⟩

/-- A fraction equal to the number: numerator and denominator. -/
def fraction (x : Binary) : Nat × Nat :=
  (x.mantissa * Nat.pow 2 x.exponent.toNat, Nat.pow 2 (-x.exponent).toNat)

/-- `num / den` to the nearest integer; a half goes to the even one. -/
def divToEven (num den : Nat) : Nat :=
  let q := num / den
  let twice := 2 * (num % den)
  if den < twice ∨ (twice = den ∧ q % 2 = 1) then q + 1 else q

/-- `num / den` in units of `2 ^ e`, to the nearest integer. -/
def scaled (num den : Nat) (e : Int) : Nat :=
  divToEven (num * Nat.pow 2 (-e).toNat) (den * Nat.pow 2 e.toNat)

/-- The number with a mantissa of 53 bits that is nearest to `num / den`. -/
def ofQuotient (num den : Nat) : Binary :=
  if num = 0 ∨ den = 0 then zero
  else
    let e : Int := (num.log2 : Int) - (den.log2 : Int) - 53
    let quotient := num * Nat.pow 2 (-e).toNat / (den * Nat.pow 2 e.toNat)
    let e := if quotient < Nat.pow 2 53 then e else e + 1
    let m := scaled num den e
    if m = Nat.pow 2 53 then ⟨Nat.pow 2 52, e + 1⟩ else ⟨m, e⟩

def ofNat (n : Nat) : Binary := ofQuotient n 1

/-- The number nearest to the quotient of two numbers. -/
def div (x y : Binary) : Binary :=
  ofQuotient (x.fraction.1 * y.fraction.2) (x.fraction.2 * y.fraction.1)

end Binary

end TimedTasks.Decimal

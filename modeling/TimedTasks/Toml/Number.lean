/-!
The words that are TOML numbers: integers to four bases, decimal fractions, and the three values
that are no ordinary numbers. The size of a number is not limited.
-/

namespace TimedTasks.Toml

/-- One digit or more; a single underscore may stand between two digits. -/
def areDigits (digit : Char → Bool) : List Char → Bool
  | [] => false
  | [c] => digit c
  | c :: '_' :: s => digit c && areDigits digit s
  | c :: s => digit c && areDigits digit s

def isHexDigit (c : Char) : Bool :=
  c.isDigit || ('a' ≤ c && c ≤ 'f') || ('A' ≤ c && c ≤ 'F')

/-- A word without the sign that it may begin with. -/
def unsigned : List Char → List Char
  | '+' :: s => s
  | '-' :: s => s
  | s => s

/-- Decimal digits that begin with a zero only if there is no other digit. -/
def isWhole (s : List Char) : Bool :=
  areDigits Char.isDigit s && (s == ['0'] || s.head? != some '0')

/-- A number to the base sixteen, eight or two. -/
def isBased : List Char → Bool
  | '0' :: 'x' :: s => areDigits isHexDigit s
  | '0' :: 'o' :: s => areDigits (fun c => '0' ≤ c && c ≤ '7') s
  | '0' :: 'b' :: s => areDigits (fun c => c == '0' || c == '1') s
  | _ => false

/-- Nothing, or the letter of an exponent with digits after it. -/
def isExponent : List Char → Bool
  | [] => true
  | c :: s => (c == 'e' || c == 'E') && areDigits Char.isDigit (unsigned s)

/-- What may follow the whole part of a decimal number: a fraction, an exponent or both. -/
def isFraction : List Char → Bool
  | '.' :: s =>
    areDigits Char.isDigit (s.takeWhile fun c => c.isDigit || c == '_') &&
      isExponent (s.dropWhile fun c => c.isDigit || c == '_')
  | s => isExponent s

/-- A decimal number without its sign. -/
def isDecimal (s : List Char) : Bool :=
  isWhole (s.takeWhile fun c => c.isDigit || c == '_') &&
    isFraction (s.dropWhile fun c => c.isDigit || c == '_')

def isNumber (s : List Char) : Bool :=
  isBased s || isDecimal (unsigned s) || unsigned s == ['i', 'n', 'f'] ||
    unsigned s == ['n', 'a', 'n']

end TimedTasks.Toml

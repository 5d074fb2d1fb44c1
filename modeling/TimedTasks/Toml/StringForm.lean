/-!
How a text is written as a TOML string. There are four forms: between one quote or three, double or
single. Between double quotes a backslash writes characters that cannot stand for themselves;
between single quotes all stand for themselves. A text gets the plainest form that holds it.
-/

namespace TimedTasks.Toml

/-- The delimiters of a string. -/
inductive StringForm where
  /-- One double quote. -/
  | basic
  /-- One single quote. -/
  | literal
  /-- Three double quotes. -/
  | multiBasic
  /-- Three single quotes. -/
  | multiLiteral
deriving DecidableEq, Repr

/-- A control character that no form holds as it is, line feeds and tabs apart. -/
def isControl (c : Char) : Bool :=
  (c.toNat < 32 && c != '\t' && c != '\n') || c.toNat == 127

/-- Whether some character stands three times in a row. -/
def hasTriple (q : Char) : List Char → Bool
  | a :: b :: c :: s => (a == q && b == q && c == q) || hasTriple q (b :: c :: s)
  | _ => false

/-- The plainest form that holds a text. -/
def StringForm.of (s : List Char) : StringForm :=
  if s.any isControl then
    if s.contains '\n' then .multiBasic else .basic
  else if !s.contains '\n' && !s.contains '\\' && !s.contains '"' then .basic
  else if !s.contains '\n' && !s.contains '\'' then .literal
  else if !s.contains '\\' && !hasTriple '"' s then .multiBasic
  else if !hasTriple '\'' s then .multiLiteral
  else if s.contains '\n' then .multiBasic
  else .basic

/-- The upper-case hexadecimal digit for a number below 16. -/
def upperHexDigit (n : Nat) : Char := (Nat.digitChar n).toUpper

/-- A character other than a quote or a line feed, as it is written between double quotes. -/
def escaped (c : Char) : List Char :=
  if c = '\x08' then ['\\', 'b']
  else if c = '\t' then ['\\', 't']
  else if c = '\x0c' then ['\\', 'f']
  else if c = '\r' then ['\\', 'r']
  else if c = '\\' then ['\\', '\\']
  else if isControl c then
    ['\\', 'u', '0', '0', upperHexDigit (c.toNat / 16), upperHexDigit (c.toNat % 16)]
  else [c]

/-- A text as it is written between single double quotes. -/
def basicBody : List Char → List Char
  | [] => []
  | '"' :: s => '\\' :: '"' :: basicBody s
  | '\n' :: s => '\\' :: 'n' :: basicBody s
  | c :: s => escaped c ++ basicBody s

/-- A text as it is written between triple double quotes, after `quotes` quotes. Only a quote that
would be the third in a row needs a backslash. -/
def multiBasicBody (quotes : Nat) : List Char → List Char
  | [] => []
  | '"' :: s =>
    if quotes = 2 then '\\' :: '"' :: multiBasicBody 0 s else '"' :: multiBasicBody (quotes + 1) s
  | '\n' :: s => '\n' :: multiBasicBody 0 s
  | c :: s => escaped c ++ multiBasicBody 0 s

/-- Between triple quotes a line feed right after the opening is no part of the text, so a text of
several lines begins on a line of its own. -/
def opening (s : List Char) : List Char := if s.contains '\n' then ['\n'] else []

/-- A text in a given form. -/
def StringForm.write (s : List Char) : StringForm → List Char
  | basic => '"' :: basicBody s ++ ['"']
  | literal => '\'' :: s ++ ['\'']
  | multiBasic => ['"', '"', '"'] ++ opening s ++ multiBasicBody 0 s ++ ['"', '"', '"']
  | multiLiteral => ['\'', '\'', '\''] ++ opening s ++ s ++ ['\'', '\'', '\'']

/-- A text as a TOML string. -/
def writeString (s : List Char) : List Char := (StringForm.of s).write s

end TimedTasks.Toml

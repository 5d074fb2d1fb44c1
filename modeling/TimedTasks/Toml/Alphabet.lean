/-!
The characters of TOML documents: which may stand for themselves, which make a word, and how lines
end and are skipped.
-/

namespace TimedTasks.Toml

/-- Space between the words of a line. -/
def isBlank (c : Char) : Bool := c == ' ' || c == '\t'

/-- A character that may stand for itself in a comment and, delimiters apart, in a string: a tab,
and all that is no ASCII control character. -/
def isPlain (c : Char) : Bool := c == '\t' || (32 ≤ c.toNat && c.toNat != 127)

/-- A character of a key that is written without quotes. -/
def isBare (c : Char) : Bool := c.isAlphanum || c == '_' || c == '-'

/-- The value of a hexadecimal digit. -/
def hexValue? (c : Char) : Option Nat :=
  if '0' ≤ c ∧ c ≤ '9' then some (c.toNat - 48)
  else if 'A' ≤ c ∧ c ≤ 'F' then some (c.toNat - 55)
  else if 'a' ≤ c ∧ c ≤ 'f' then some (c.toNat - 87)
  else none

/-- A reader finds something at the beginning of a text and leaves the rest of the text. -/
abbrev Reader (α : Type) := List Char → Option (α × List Char)

def skipBlanks (s : List Char) : List Char := s.dropWhile isBlank

/-- The text after the line end with which it begins: a line feed, alone or after a carriage
return. -/
def afterLineEnd? : List Char → Option (List Char)
  | '\n' :: s => some s
  | '\r' :: '\n' :: s => some s
  | _ => none

/-- The next line: what is left after blanks, a comment, and the end of the line or the text. -/
def nextLine? (s : List Char) : Option (List Char) :=
  let r := match skipBlanks s with
    | '#' :: r => r.dropWhile isPlain
    | r => r
  if r = [] then some [] else afterLineEnd? r

theorem length_dropWhile_le (p : Char → Bool) (s : List Char) :
    (s.dropWhile p).length ≤ s.length := by
  induction s with
  | nil => simp
  | cons c s ih =>
    rw [List.dropWhile_cons]
    split
    · exact Nat.le_succ_of_le ih
    · exact Nat.le_refl _

/-- What is left after blanks, line ends and comments. A comment that does not end with its line
leaves the character that ends it. -/
def skipLines : List Char → List Char
  | '\n' :: s => skipLines s
  | '\r' :: '\n' :: s => skipLines s
  | '#' :: s => skipLines (s.dropWhile isPlain)
  | c :: s => if isBlank c then skipLines s else c :: s
  | [] => []
termination_by s => s.length
decreasing_by
  all_goals simp only [List.length_cons]
  · omega
  · omega
  · have := length_dropWhile_le isPlain s
    omega
  · omega

/-- Reads items as long as there are any, by a step that finds one more or the end. -/
def readAll {α : Type} (step : Reader (Option α)) (s : List Char) : Option (List α × List Char) :=
  match step s with
  | none => none
  | some (none, r) => some ([], r)
  | some (some a, r) =>
    if r.length < s.length then (readAll step r).map fun p => (a :: p.1, p.2) else none
termination_by s.length

end TimedTasks.Toml

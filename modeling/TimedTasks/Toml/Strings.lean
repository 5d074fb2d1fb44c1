import TimedTasks.Toml.Alphabet
/-!
Reading TOML strings in their four forms. Each reader starts after the opening delimiter and takes
the closing one.
-/

namespace TimedTasks.Toml

/-- The number that `width` hexadecimal digits add to those already read. -/
def hexNumber : (width value : Nat) → Reader Nat
  | 0, value, s => some (value, s)
  | _ + 1, _, [] => none
  | width + 1, value, c :: s =>
    match hexValue? c with
    | some d => hexNumber width (16 * value + d) s
    | none => none

/-- The character of a given number, unless there is none. -/
def character? (n : Nat) : Option Char :=
  if n.isValidChar then some (Char.ofNat n) else none

/-- A character that is written by `width` hexadecimal digits. -/
def codePoint (width : Nat) : Reader Char := fun s =>
  match hexNumber width 0 s with
  | some (n, r) => (character? n).map fun c => (c, r)
  | none => none

/-- A character that is written by a letter after a backslash. -/
def escapeLetter? (c : Char) : Option Char :=
  if c = 'b' then some '\x08'
  else if c = 't' then some '\t'
  else if c = 'n' then some '\n'
  else if c = 'f' then some '\x0c'
  else if c = 'r' then some '\r'
  else if c = 'e' then some '\x1b'
  else if c = '"' then some '"'
  else if c = '\\' then some '\\'
  else none

/-- The character that follows a backslash, in letters or digits. -/
def escape : Reader Char
  | 'x' :: s => codePoint 2 s
  | 'u' :: s => codePoint 4 s
  | 'U' :: s => codePoint 8 s
  | c :: s => (escapeLetter? c).map fun d => (d, s)
  | [] => none

theorem length_of_hexNumber {width value n : Nat} {s r : List Char}
    (h : hexNumber width value s = some (n, r)) : r.length ≤ s.length := by
  fun_induction hexNumber width value s with
  | case1 => simp_all
  | case2 => simp at h
  | case3 _ _ _ _ _ _ ih => exact Nat.le_succ_of_le (ih h)
  | case4 => simp at h

theorem length_of_codePoint {width : Nat} {c : Char} {s r : List Char}
    (h : codePoint width s = some (c, r)) : r.length ≤ s.length := by
  unfold codePoint at h
  split at h
  · rename_i hn
    obtain ⟨_, _, h⟩ := Option.map_eq_some_iff.1 h
    obtain ⟨_, rfl⟩ := Prod.mk.inj h
    exact length_of_hexNumber hn
  · simp at h

theorem length_of_escape {c : Char} {s r : List Char} (h : escape s = some (c, r)) :
    r.length < s.length := by
  unfold escape at h
  split at h
  · exact Nat.lt_succ_of_le (length_of_codePoint h)
  · exact Nat.lt_succ_of_le (length_of_codePoint h)
  · exact Nat.lt_succ_of_le (length_of_codePoint h)
  · obtain ⟨_, _, h⟩ := Option.map_eq_some_iff.1 h
    obtain ⟨_, rfl⟩ := Prod.mk.inj h
    exact Nat.lt_succ_self _
  · simp at h

/-- Between single double quotes: plain characters and escapes. -/
def basic (s : List Char) : Option (List Char × List Char) :=
  match s with
  | [] => none
  | '"' :: s => some ([], s)
  | '\\' :: s =>
    match _h : escape s with
    | some (c, r) => (basic r).map fun p => (c :: p.1, p.2)
    | none => none
  | c :: s => if isPlain c then (basic s).map fun p => (c :: p.1, p.2) else none
termination_by s.length
decreasing_by
  · have := length_of_escape ‹_›
    simp only [List.length_cons]
    omega
  · simp

/-- Between single quotes: plain characters. -/
def literal : Reader (List Char)
  | [] => none
  | '\'' :: s => some ([], s)
  | c :: s => if isPlain c then (literal s).map fun p => (c :: p.1, p.2) else none

/-- Up to two quotes before a closing delimiter of three belong to the text. -/
def closing (q : Char) : List Char → List Char × List Char
  | a :: b :: s =>
    if a = q ∧ b = q then ([a, b], s) else if a = q then ([a], b :: s) else ([], a :: b :: s)
  | [a] => if a = q then ([a], []) else ([], [a])
  | [] => ([], [])

/-- What is left after blanks and line ends. -/
def skipEmptyLines : List Char → List Char
  | '\n' :: s => skipEmptyLines s
  | '\r' :: '\n' :: s => skipEmptyLines s
  | c :: s => if isBlank c then skipEmptyLines s else c :: s
  | [] => []

/-- What is left after a backslash at the end of a line: the line end, and all blanks and line ends
up to the next other character, do not count. -/
def afterBrokenLine? (s : List Char) : Option (List Char) :=
  (afterLineEnd? (skipBlanks s)).map skipEmptyLines

theorem length_skipEmptyLines_le (s : List Char) : (skipEmptyLines s).length ≤ s.length := by
  fun_induction skipEmptyLines s with
  | case1 _ ih => exact Nat.le_succ_of_le ih
  | case2 _ ih => exact Nat.le_succ_of_le (Nat.le_succ_of_le ih)
  | case3 _ _ _ _ _ ih => exact Nat.le_succ_of_le ih
  | case4 => exact Nat.le_refl _
  | case5 => exact Nat.le_refl _

theorem length_of_afterLineEnd? {s r : List Char} (h : afterLineEnd? s = some r) :
    r.length < s.length := by
  unfold afterLineEnd? at h
  split at h
  · simp_all
  · obtain rfl := Option.some.inj h
    simp only [List.length_cons]
    omega
  · simp at h

theorem length_of_afterBrokenLine? {s r : List Char} (h : afterBrokenLine? s = some r) :
    r.length ≤ s.length := by
  obtain ⟨t, ht, rfl⟩ := Option.map_eq_some_iff.1 h
  have h₁ := length_of_afterLineEnd? ht
  have h₂ := length_dropWhile_le isBlank s
  have h₃ := length_skipEmptyLines_le t
  unfold skipBlanks at h₁
  omega

/-- Between triple double quotes: plain characters, line ends, and escapes, to which a broken line
belongs. -/
def multiBasic (s : List Char) : Option (List Char × List Char) :=
  match s with
  | [] => none
  | '"' :: '"' :: '"' :: s => some (closing '"' s)
  | '\\' :: s =>
    match _h : afterBrokenLine? s with
    | some r => multiBasic r
    | none =>
      match _h : escape s with
      | some (c, r) => (multiBasic r).map fun p => (c :: p.1, p.2)
      | none => none
  | '\r' :: '\n' :: s => (multiBasic s).map fun p => ('\r' :: '\n' :: p.1, p.2)
  | c :: s =>
    if isPlain c || c == '\n' then (multiBasic s).map fun p => (c :: p.1, p.2) else none
termination_by s.length
decreasing_by
  · have := length_of_afterBrokenLine? ‹_›
    simp only [List.length_cons]
    omega
  · have := length_of_escape ‹_›
    simp only [List.length_cons]
    omega
  · simp only [List.length_cons]
    omega
  · simp

/-- Between triple single quotes: plain characters and line ends. -/
def multiLiteral : Reader (List Char)
  | [] => none
  | '\'' :: '\'' :: '\'' :: s => some (closing '\'' s)
  | '\r' :: '\n' :: s => (multiLiteral s).map fun p => ('\r' :: '\n' :: p.1, p.2)
  | c :: s =>
    if isPlain c || c == '\n' then (multiLiteral s).map fun p => (c :: p.1, p.2) else none

/-- The text after a line end that may stand right after three quotes. -/
def afterOpening (s : List Char) : List Char := (afterLineEnd? s).getD s

/-- A string in any form. -/
def readString : Reader (List Char)
  | '"' :: '"' :: '"' :: s => multiBasic (afterOpening s)
  | '"' :: s => basic s
  | '\'' :: '\'' :: '\'' :: s => multiLiteral (afterOpening s)
  | '\'' :: s => literal s
  | _ => none

end TimedTasks.Toml

import TimedTasks.Toml.Strings
import TimedTasks.Toml.Number
import TimedTasks.Toml.Moment
import TimedTasks.Toml.Value
/-!
Reading TOML documents. A document that breaks a rule anywhere is not read at all.
-/

namespace TimedTasks.Toml

/-! ## Keys -/

/-- A key without dots: in quotes, or made of bare characters. -/
def keyWord : Reader (List Char)
  | '"' :: s => basic s
  | '\'' :: s => literal s
  | s => if s.takeWhile isBare = [] then none else some (s.takeWhile isBare, s.dropWhile isBare)

/-- One part of a key with the blanks after it. -/
def keyPart : Reader String := fun s =>
  (keyWord s).map fun p => (String.ofList p.1, skipBlanks p.2)

/-- The parts of a key after the first, each after a dot. -/
def moreKeyParts : Reader (Option String)
  | '.' :: s => (keyPart (skipBlanks s)).map fun p => (some p.1, p.2)
  | s => some (none, s)

/-- A key of one part is no path. -/
def Key.ofParts (first : String) : List String → Key
  | [] => ⟨[], first⟩
  | part :: parts => let k := Key.ofParts part parts; ⟨first :: k.above, k.last⟩

/-- A key, with blanks around it. -/
def readKey : Reader Key := fun s => do
  let (first, r) ← keyPart (skipBlanks s)
  let (parts, r) ← readAll moreKeyParts r
  some (Key.ofParts first parts, r)

/-! ## Values -/

/-- A character with which a word without quotes ends. -/
def endsWord (c : Char) : Bool :=
  ['=', ',', '[', ']', '\x7b', '\x7d', ' ', '\t', '#', '\r', '\n'].contains c

/-- The rest of a word. After a day, a time may follow behind a single space. -/
def readWord : Reader (List Char) := fun s =>
  let word := s.takeWhile (!endsWord ·)
  match s.dropWhile (!endsWord ·) with
  | ' ' :: c :: r =>
    if c.isDigit && afterDay? word == some [] then
      (word ++ ' ' :: (c :: r).takeWhile (!endsWord ·), (c :: r).dropWhile (!endsWord ·))
    else (word, ' ' :: c :: r)
  | r => (word, r)

/-- The value that a word stands for. -/
def Value.ofWord? (word : List Char) : Option Value :=
  if word = ['t', 'r', 'u', 'e'] then some (.boolean true)
  else if word = ['f', 'a', 'l', 's', 'e'] then some (.boolean false)
  else if isMoment word then some (.moment (String.ofList word))
  else if isNumber word then some (.number (String.ofList word))
  else none

/-- A value that holds no others. -/
def readPlain : Reader Value := fun s =>
  match s with
  | '"' :: _ | '\'' :: _ => (readString s).map fun p => (.string (String.ofList p.1), p.2)
  | _ => do
    let (word, r) ← readWord s
    (Value.ofWord? word).map fun v => (v, r)

/-- The rest of a list of items after one of them: a comma is taken, the end is left. -/
def afterItem? (last : Char) (s : List Char) : Option (List Char) :=
  match skipLines s with
  | [] => none
  | c :: r => if c = ',' then some r else if c = last then some (c :: r) else none

/-- The next of the items between an opening and a closing character, or the end. -/
def nextItem {α : Type} (last : Char) (item : Reader α) : Reader (Option α) := fun s =>
  match skipLines s with
  | [] => none
  | c :: r =>
    if c = last then some (none, r)
    else do
      let (a, r) ← item (c :: r)
      (afterItem? last r).map fun r => (some a, r)

/-- A key, an equals sign and a value, in one line. -/
def readPair (value : Reader Value) : Reader (Key × Value) := fun s => do
  let (key, r) ← readKey s
  match r with
  | '=' :: r =>
    let (v, r) ← value (skipBlanks r)
    some ((key, v), r)
  | _ => none

/-- The table of the pairs between two braces. -/
def Value.ofPairs? (pairs : List (Key × Value)) : Option Value :=
  (pairs.foldlM (fun es p => Entries.add p.1 p.2 .header es) []).map (.table .inline)

/-- A value in which arrays and tables are at most `depth` deep. -/
def readValue : (depth : Nat) → Reader Value
  | depth + 1, '[' :: s =>
    (readAll (nextItem ']' (readValue depth)) s).map fun p => (.array p.1, p.2)
  | depth + 1, '\x7b' :: s => do
    let (pairs, r) ← readAll (nextItem '\x7d' (readPair (readValue depth))) s
    (Value.ofPairs? pairs).map fun v => (v, r)
  | _, s => readPlain s

/-- How deep arrays and inline tables may be nested. -/
def maxDepth : Nat := 80

/-! ## Documents -/

/-- The key of a header between its brackets, of which there are `width` on each side. -/
def readHeader (width : Nat) : Reader Key := fun s => do
  let (key, r) ← readKey s
  if r.take width = List.replicate width ']' then some (key, r.drop width) else none

/-- What a line says that says anything. -/
def readStatement : Reader Statement
  | '[' :: '[' :: s => (readHeader 2 s).map fun p => (.element p.1, p.2)
  | '[' :: s => (readHeader 1 s).map fun p => (.table p.1, p.2)
  | s => (readPair (readValue maxDepth) s).map fun p => (.pair p.1.1 p.1.2, p.2)

/-- The next statement, after lines that say nothing, with the rest of its line; or the end. -/
def nextStatement : Reader (Option Statement) := fun s =>
  match skipLines s with
  | [] => some (none, [])
  | s => do
    let (st, r) ← readStatement s
    (nextLine? r).map fun r => (some st, r)

/-- A text without the mark with which it may begin. -/
def withoutMark : List Char → List Char
  | '\ufeff' :: s => s
  | s => s

/-- The entries of a document. -/
def readDocument? (s : List Char) : Option Entries := do
  let (statements, _) ← readAll nextStatement (withoutMark s)
  let d ← statements.foldlM Document.apply {}
  some d.entries

end TimedTasks.Toml

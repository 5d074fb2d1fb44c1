/-!
The values of TOML documents, and how the lines of a document fill its tables.

A table can be given in pieces, but not twice: each table remembers how it was begun, and that
decides what may still be added to it.
-/

namespace TimedTasks.Toml

/-- How a table was begun. -/
inductive Origin where
  /-- By a header of its own; so are the document itself and the elements of an array of tables. -/
  | header
  /-- On the way to a header further down. -/
  | implied
  /-- On the way of a dotted key. -/
  | dotted
  /-- Between braces, where it is complete. -/
  | inline
deriving DecidableEq, Repr

inductive Value where
  | string (s : String)
  | boolean (b : Bool)
  /-- A number by its text. -/
  | number (word : String)
  /-- A date or a time by its text. -/
  | moment (word : String)
  | array (items : List Value)
  | table (origin : Origin) (entries : List (String × Value))
  /-- An array of tables, which headers extend; the latest element stands apart. -/
  | tables (latest : List (String × Value)) (earlier : List (List (String × Value)))

/-- The keys of a table with their values, in the order in which they came. -/
abbrev Entries := List (String × Value)

/-- A key with the tables that lead to it. -/
structure Key where
  above : List String
  last : String
deriving DecidableEq, Repr

namespace Entries

/-- The entries with another value under a key that is there. -/
def replace (key : String) (v : Value) : Entries → Entries
  | [] => []
  | (k, w) :: es => if k = key then (k, v) :: es else (k, w) :: replace key v es

/-- Changes the table at the end of a path; tables that are missing on the way are begun. A dotted
key may only pass tables that no header has begun, and nothing passes what is complete. -/
def modifyAt (dotted : Bool) (change : Origin → Entries → Option Entries) :
    List String → Origin → Entries → Option Entries
  | [], origin, es => change origin es
  | key :: path, _, es =>
    match es.lookup key with
    | none =>
      let origin := if dotted then .dotted else .implied
      (modifyAt dotted change path origin []).map fun new => es ++ [(key, .table origin new)]
    | some (.table origin old) =>
      if origin = .inline ∨ (dotted ∧ origin = .header) then none
      else
        (modifyAt dotted change path origin old).map fun new =>
          replace key (.table origin new) es
    | some (.tables latest earlier) =>
      (modifyAt dotted change path .header latest).map fun new =>
        replace key (.tables new earlier) es
    | some _ => none

/-- Adds a value under a key that is not there yet. The dotted keys of one table and its other keys
do not mix. -/
def add (key : Key) (v : Value) : Origin → Entries → Option Entries :=
  modifyAt true (fun origin es =>
    if (origin = .dotted ↔ key.above ≠ []) ∧ (es.lookup key.last).isNone then
      some (es ++ [(key.last, v)])
    else none) key.above

/-- Begins the table of a header, or takes it over where it was only implied. -/
def openTable (key : Key) : Entries → Option Entries :=
  modifyAt false (fun _ es =>
    match es.lookup key.last with
    | none => some (es ++ [(key.last, .table .header [])])
    | some (.table .implied old) => some (replace key.last (.table .header old) es)
    | some _ => none) key.above .header

/-- Begins one more element of an array of tables. -/
def openElement (key : Key) : Entries → Option Entries :=
  modifyAt false (fun _ es =>
    match es.lookup key.last with
    | none => some (es ++ [(key.last, .tables [] [])])
    | some (.tables latest earlier) =>
      some (replace key.last (.tables [] (latest :: earlier)) es)
    | some _ => none) key.above .header

end Entries

/-- What a line of a document says. -/
inductive Statement where
  | pair (key : Key) (v : Value)
  | table (key : Key)
  | element (key : Key)

/-- A document that is being read: its entries, and the path of the table that is being filled. -/
structure Document where
  entries : Entries := []
  current : List String := []

namespace Document

def apply (d : Document) : Statement → Option Document
  | .pair key v =>
    (Entries.modifyAt false (Entries.add key v) d.current .header d.entries).map fun es =>
      { d with entries := es }
  | .table key => (Entries.openTable key d.entries).map fun es => ⟨es, key.above ++ [key.last]⟩
  | .element key => (Entries.openElement key d.entries).map fun es => ⟨es, key.above ++ [key.last]⟩

end Document

end TimedTasks.Toml

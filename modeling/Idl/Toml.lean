import Idl.Assoc

/-!
# Configuration documents

The values of a TOML document, and how its statements build up tables.  A table can be opened once
by a header, and no header may open a table that a key with dots has led through; a value is never
changed.  Numbers may be too large: that counts only where a number is read.
-/

namespace Idl

inductive Toml
  | text (value : String)
  | bool (value : Bool)
  | integer (value : Int)
  /-- A number with a fraction or an exponent, which may be too large for a double. -/
  | float (tooLarge : Bool)
  | moment
  | list (items : List Toml)
  | table (entries : List (String × Toml))

namespace Toml

def isInt128 (n : Int) : Bool := decide (-Nat.pow 2 127 ≤ n ∧ n < Nat.pow 2 128)

mutual

def isReadable : Toml → Bool
  | integer value => isInt128 value
  | float tooLarge => !tooLarge
  | list items => areReadable items
  | table entries => entriesReadable entries
  | text _ | bool _ | moment => true

def areReadable : List Toml → Bool
  | [] => true
  | item :: items => item.isReadable && areReadable items

def entriesReadable : List (String × Toml) → Bool
  | [] => true
  | (_, value) :: entries => value.isReadable && entriesReadable entries

end

inductive Origin
  | implicit
  | header
  | dotted
deriving DecidableEq, Repr

inductive Node
  | value (value : Toml)
  | table (origin : Origin) (entries : List (String × Node))
  | tables (finished : List (List (String × Node))) (last : List (String × Node))

abbrev Entries := List (String × Node)

namespace Node

/-- Changes the table that a path leads to, and makes the tables on the way that are not there.
Keys with dots do not lead into a table that has a header, and claim the others. -/
def update (dotted : Bool) (change : Origin → Entries → Option Entries) :
    List String → Origin → Entries → Option Entries
  | [], origin, entries => change origin entries
  | key :: path, _, entries =>
    match entries.lookup key with
    | none => do
      let origin := if dotted then .dotted else .implicit
      return entries ++ [(key, table origin (← update dotted change path origin []))]
    | some (value _) => none
    | some (table origin inner) =>
      if dotted && origin == .header then none
      else do
        let origin := if dotted then .dotted else origin
        return Assoc.put key (table origin (← update dotted change path origin inner)) entries
    | some (tables finished last) => do
      return Assoc.put key (tables finished (← update dotted change path .header last)) entries

def openTable (key : String) (entries : Entries) : Option Entries :=
  match entries.lookup key with
  | none => some (entries ++ [(key, table .header [])])
  | some (table .implicit inner) => some (Assoc.put key (table .header inner) entries)
  | some _ => none

def openTables (key : String) (entries : Entries) : Option Entries :=
  match entries.lookup key with
  | none => some (entries ++ [(key, tables [] [])])
  | some (tables finished last) =>
    some (Assoc.put key (tables (finished ++ [last]) []) entries)
  | some _ => none

/-- Gives a new key a value.  The table of a key with dots must come from such keys, and that of a
plain key must not. -/
def setKey (key : String) (toml : Toml) (plain : Bool) (origin : Origin) (entries : Entries) :
    Option Entries :=
  if (origin == .dotted) == plain then none
  else match entries.lookup key with
    | none => some (entries ++ [(key, value toml)])
    | some _ => none

def assign (path : List String) (toml : Toml) (entries : Entries) : Option Entries :=
  match path.getLast? with
  | none => none
  | some key => update true (setKey key toml path.dropLast.isEmpty) path.dropLast .header entries

mutual

def finish : Node → Toml
  | value toml => toml
  | table _ entries => .table (finishEntries entries)
  | tables finished last => .list (finishTables finished ++ [.table (finishEntries last)])

def finishEntries : List (String × Node) → List (String × Toml)
  | [] => []
  | (key, node) :: entries => (key, node.finish) :: finishEntries entries

def finishTables : List (List (String × Node)) → List Toml
  | [] => []
  | entries :: rest => .table (finishEntries entries) :: finishTables rest

end

end Node

inductive Statement
  | header (path : List String)
  | item (path : List String)
  | assign (path : List String) (value : Toml)

structure Document where
  opened : List String
  entries : Entries

namespace Document

def empty : Document := ⟨[], []⟩

def openWith (document : Document) (path : List String)
    (change : String → Entries → Option Entries) : Option Document := do
  let key ← path.getLast?
  let entries ← Node.update false (fun _ => change key) path.dropLast .header document.entries
  return ⟨path, entries⟩

def add (document : Document) : Statement → Option Document
  | .header path => document.openWith path Node.openTable
  | .item path => document.openWith path Node.openTables
  | .assign path value => do
    let entries ←
      Node.update false (fun _ => Node.assign path value) document.opened .header document.entries
    return { document with entries }

def ofStatements (statements : List Statement) : Option Toml := do
  let document ← statements.foldlM add empty
  return .table (Node.finishEntries document.entries)

end Document

end Toml

end Idl

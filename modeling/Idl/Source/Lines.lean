/-!
# Lines and columns

A `LineIndex` lists the byte offsets at which the lines of a text start.  The line of an offset is
looked up among them by halving.
-/

namespace Idl

/-- A line and a column, both counted from one; columns count bytes. -/
structure Position where
  line : Nat
  column : Nat
deriving DecidableEq, Repr

def Position.text (p : Position) : String := toString p.line ++ ":" ++ toString p.column

/-- The byte offsets at which lines start, in increasing order. -/
structure LineIndex where
  starts : Array Nat
deriving DecidableEq, Repr

/-- Where a search in increasing numbers ends: at the number, or where it would have to stand. -/
inductive SearchEnd
  | found (index : Nat)
  | missing (index : Nat)
deriving DecidableEq, Repr

/-- Looks for a number among increasing ones, from `low` up to `high`. -/
def bisect (numbers : Array Nat) (number low high : Nat) : SearchEnd :=
  if low < high then
    let middle := (low + high) / 2
    let there := numbers.getD middle 0
    if there = number then .found middle
    else if there < number then bisect numbers number (middle + 1) high
    else bisect numbers number low middle
  else .missing low
termination_by high - low

namespace LineIndex

def startsAfter (offset : Nat) : List Char → List Nat
  | [] => []
  | c :: cs =>
    let next := offset + c.utf8Size
    if c = '\n' then next :: startsAfter next cs else startsAfter next cs

def ofChars (source : List Char) : LineIndex := ⟨(0 :: startsAfter 0 source).toArray⟩

def ofText (source : String) : LineIndex := ofChars source.toList

/-- The line that an offset is on, counted from one. -/
def line (index : LineIndex) (offset : Nat) : Nat :=
  match bisect index.starts offset 0 index.starts.size with
  | .found line => line + 1
  | .missing next => next

def lineStart (index : LineIndex) (line : Nat) : Nat := index.starts[line - 1]?.getD 0

def position (index : LineIndex) (offset : Nat) : Position :=
  let line := index.line offset
  { line, column := offset - index.lineStart line + 1 }

end LineIndex

end Idl

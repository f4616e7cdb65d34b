import Idl.Source.Span

/-!
# Sites of definitions

Where the names and the numbers of one scope were first defined.
-/

namespace Idl

/-- The place at which each key is known to be defined; the newest entry of a key counts. -/
abbrev Sites (κ : Type) := List (κ × Span)

namespace Sites

variable {κ : Type} [BEq κ]

def site? (sites : Sites κ) (key : κ) : Option Span := sites.lookup key

def add (sites : Sites κ) (key : κ) (span : Span) : Sites κ := (key, span) :: sites

/-- Records a key that is not defined yet, or tells where it is. -/
def insert (sites : Sites κ) (key : κ) (span : Span) : Except Span (Sites κ) :=
  match sites.site? key with
  | some first => .error first
  | none => .ok (sites.add key span)

end Sites

/-- The names and the numbers of a scope, which do not clash with each other. -/
structure Ledger where
  names : Sites String
  numbers : Sites Int64
deriving DecidableEq, Repr

namespace Ledger

def empty : Ledger := ⟨[], []⟩

def insertName (ledger : Ledger) (name : String) (span : Span) : Except Span Ledger := do
  return { ledger with names := ← ledger.names.insert name span }

def insertNumber (ledger : Ledger) (number : Int64) (span : Span) : Except Span Ledger := do
  return { ledger with numbers := ← ledger.numbers.insert number span }

end Ledger

end Idl

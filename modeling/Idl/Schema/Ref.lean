/-!
# References to declarations

Analysed programs are numbered.  A reference names a program and the way to a message or an enum
inside it, so that a bound type name needs no copy of the declaration it stands for.
-/

namespace Idl

abbrev ProgramId := Nat

/-- The way to a message: its index at the top level, then one index for each nesting. -/
abbrev MessagePath := List Nat

/-- The way to an enum: the message it is declared in, if any, and its index there. -/
structure EnumPath where
  owner : Option MessagePath
  index : Nat
deriving DecidableEq, Repr

structure MessageRef where
  program : ProgramId
  path : MessagePath
deriving DecidableEq, Repr

structure EnumRef where
  program : ProgramId
  path : EnumPath
deriving DecidableEq, Repr

inductive TypeRef
  | message (ref : MessageRef)
  | enum (ref : EnumRef)
deriving DecidableEq, Repr

end Idl

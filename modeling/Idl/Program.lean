import Idl.Analysis.Sites
import Idl.Descriptor

/-!
# Programs

A program is a schema under the name of its file, with what the analysis has found out about it so
far.  An arena holds the programs that are analysed together; programs refer to each other by
number.
-/

namespace Idl

/-- The names that a program defines, and the way to each of its messages and enums. -/
structure Scope where
  names : Sites String
  messages : Assoc String MessagePath
  enums : Assoc String EnumPath
deriving DecidableEq, Repr

def Scope.empty : Scope := ⟨[], [], []⟩

structure Program where
  file : String
  schema : Schema
  scope : Scope
  references : Option (Assoc String (List ProgramId))
  descriptor : Option FileDesc

namespace Program

def ofSchema (file : String) (schema : Schema) : Program := ⟨file, schema, .empty, none, none⟩

def package (program : Program) : String := program.schema.package.name.value

def importTargets (program : Program) : List ProgramId :=
  program.schema.imports.filterMap (·.target)

end Program

abbrev Arena := List Program

def Arena.message? (arena : Arena) (ref : MessageRef) : Option Message :=
  arena[ref.program]?.bind (·.schema.message? ref.path)

end Idl

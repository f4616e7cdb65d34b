import Idl.Analysis.Clash
import Idl.Program

/-!
# Imports

A file and a local name are imported at most once.  Linking gathers the programs that an import
name stands for: its local name, or else the package of the program that it is bound to.
-/

namespace Idl

namespace Schema

def checkImportsFrom : Sites String → Sites String → List Import → Except Clash Unit
  | _, _, [] => .ok ()
  | files, names, item :: imports => do
    let files ← (files.insert item.file.value item.file.span).mapError
      (.repeated (.importFile item.file.value) item.file.span)
    match item.localName with
    | none => checkImportsFrom files names imports
    | some name =>
      let names ← (names.insert name.value name.span).mapError
        (.repeated (.importName name.value) name.span)
      checkImportsFrom files names imports

def checkImports (schema : Schema) : Except Clash Unit := checkImportsFrom [] [] schema.imports

/-- Binds an import that is not bound; tells whether there was one to bind. -/
def bindImport (schema : Schema) (index : Nat) (target : ProgramId) : Schema × Bool :=
  match schema.imports[index]? with
  | none => (schema, false)
  | some item =>
    if item.target.isSome then (schema, false)
    else ({ schema with imports := schema.imports.set index { item with target } }, true)

end Schema

inductive LinkFault
  | unbound (file : Located String)
  | packageMismatch (name : String) (first second : String × String) (span : Span)
deriving DecidableEq, Repr

def LinkFault.diagnostic : LinkFault → Diagnostic
  | unbound file =>
    { severity := .error
      code := none
      message := "import `" ++ file.value ++ "` has not been analysed"
      labels := [⟨file.span, "unbound import", true⟩]
      help := none }
  | packageMismatch name first second span =>
    .error .packageMismatch
      ("`" ++ name ++ "` refers to both package `" ++ first.1 ++ "` (" ++ first.2
        ++ ") and package `" ++ second.1 ++ "` (" ++ second.2 ++ ")")
      span Code.packageMismatch.description
      (some "files imported under one name must declare the same package")

namespace Arena

def imported? (arena : Arena) (item : Import) : Option (ProgramId × Program) := do
  let id ← item.target
  let program ← arena[id]?
  return (id, program)

def linkFrom (arena : Arena) :
    Assoc String (List ProgramId) → List Import → Except LinkFault (Assoc String (List ProgramId))
  | references, [] => .ok references
  | references, item :: imports =>
    match arena.imported? item with
    | none => .error (.unbound item.file)
    | some (id, program) =>
      let name := match item.localName with
        | some name => name.value
        | none => program.package
      let ids := (references.lookup name).getD []
      match (ids.filterMap (arena[·]?)).find? (·.package != program.package) with
      | some other =>
        .error (.packageMismatch name (other.package, other.file) (program.package, program.file)
          item.file.span)
      | none =>
        let ids := if ids.contains id then ids else ids ++ [id]
        linkFrom arena (references.put name ids) imports

end Arena

namespace Program

/-- The programs that each import name stands for. -/
def link (arena : Arena) (program : Program) : Except LinkFault (Assoc String (List ProgramId)) :=
  arena.linkFrom [] program.schema.imports

/-- Links the imports; what an earlier link has found stays. -/
def linkImports (arena : Arena) (program : Program) : Except LinkFault Program := do
  let references ← program.link arena
  return { program with references := some (program.references.getD references) }

end Program

end Idl

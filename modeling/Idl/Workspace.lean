import Idl.Analysis.Definition
import Idl.Analysis.Import
import Idl.Analysis.Reference
import Idl.Failure
import Idl.Files.View
import Idl.Grammar
import Idl.Unseen

/-!
# Workspaces

A workspace holds the programs that were analysed so far.  Analysing a file parses and checks it,
registers it, and only then follows its imports: an import that leads back to a file in progress
finds it registered, so analysis ends on every import graph.  When an analysis fails, the programs
that it has registered are dropped.
-/

namespace Idl

structure Workspace where
  base : String
  config : ParseConfig
  settings : List Setting
  /-- The dialect of files with a given suffix; the first suffix that fits counts. -/
  parsers : Assoc String Dialect
  programs : Arena
  byFile : Assoc String ProgramId
  byPath : Assoc FileName ProgramId

namespace Workspace

def nativeSuffix : String := ".wproto"

def protobufSuffix : String := ".proto"

def new (base : String) (config : ParseConfig) (settings : List Setting) : Workspace where
  base := base
  config := config
  settings := settings
  parsers := [(nativeSuffix, .native), (protobufSuffix, .protobuf)]
  programs := []
  byFile := []
  byPath := []

def register (w : Workspace) (suffix : String) (dialect : Dialect) : Workspace :=
  { w with parsers := w.parsers.put suffix dialect }

def get? (w : Workspace) (file : String) : Option ProgramId := w.byFile.lookup file

def program? (w : Workspace) (id : ProgramId) : Option Program := w.programs[id]?

def dialectOf (w : Workspace) (file : String) : Except Failure Dialect :=
  match w.parsers.find? fun (suffix, _) => suffix.toList.isSuffixOf file.toList with
  | some (_, dialect) => .ok dialect
  | none => .error (.unsupported file)

/-- Parses the text of a file and checks what can be checked without its imports. -/
def parse (w : Workspace) (dialect : Dialect) (file source : String) : Except Failure Program := do
  let fail (diagnostics : List Diagnostic) : Failure := .parse diagnostics file source
  let schema ← (dialect.parse w.config source).mapError fail
  let schema := { schema with options := Setting.applyAll w.settings schema.options }
  schema.checkImports.mapError fun clash => fail [clash.diagnostic]
  match (Program.ofSchema file schema).checkDefinitions w.config with
  | (program, none) => return program
  | (_, some clash) => throw (fail [clash.diagnostic])

def add (w : Workspace) (file : String) (name : FileName) (program : Program) : Workspace :=
  let id := w.programs.length
  { w with
    programs := w.programs ++ [program]
    byFile := w.byFile.put file id
    byPath := w.byPath.put name id }

def evictFrom (w : Workspace) (id : ProgramId) : Workspace :=
  { w with
    programs := w.programs.take id
    byFile := w.byFile.filter (·.2 < id)
    byPath := w.byPath.filter (·.2 < id) }

def bindImport (w : Workspace) (id index : Nat) (target : ProgramId) : Workspace :=
  { w with programs := w.programs.modify id fun program =>
      { program with schema := (program.schema.bindImport index target).1 } }

def followImports (analyse : Workspace → String → Workspace × Except Failure ProgramId)
    (importer : String) (id : ProgramId) (w : Workspace) :
    List (String × Nat) → Workspace × Except Failure Unit
  | [] => (w, .ok ())
  | (file, index) :: imports =>
    match analyse w file with
    | (w, .error cause) => (w, .error (.imported file importer cause))
    | (w, .ok target) =>
      followImports analyse importer id (w.bindImport id index target) imports

def linkProgram (w : Workspace) (id : ProgramId) (program : Program) (source : String) :
    Except Failure Workspace := do
  let fail (diagnostic : Diagnostic) : Failure := .parse [diagnostic] program.file source
  let program ← (program.linkImports w.programs).mapError (fail ·.diagnostic)
  let arena := w.programs.set id program
  match program.bindReferences arena id with
  | (program, none) => return { w with programs := arena.set id program }
  | (_, some fault) => throw (fail fault.diagnostic)

def linkAt (w : Workspace) (id : ProgramId) (source : String) : Except Failure Workspace :=
  match w.program? id with
  | none => .ok w
  | some program => w.linkProgram id program source

def importsOf (program : Program) : List (String × Nat) :=
  program.schema.imports.zipIdx.map fun (item, index) => (item.file.value, index)

/-- Follows the imports of a registered program, then links it. -/
def link (analyse : Workspace → String → Workspace × Except Failure ProgramId) (w : Workspace)
    (id : ProgramId) (program : Program) (source : String) : Workspace × Except Failure Unit :=
  match followImports analyse program.file id w (importsOf program) with
  | (w, .error failure) => (w, .error failure)
  | (w, .ok ()) =>
    match w.linkAt id source with
    | .error failure => (w, .error failure)
    | .ok w => (w, .ok ())

/-- Reads the file of a name and checks what can be checked without its imports.  The text is
returned too. -/
def readProgram (files : FileView) (w : Workspace) (file : String) (name : FileName) :
    Except Failure (Program × String) := do
  let dialect ← w.dialectOf file
  let source ← (files.readName name).mapError (.io (Path.join w.base file))
  return (← w.parse dialect file source, source)

def load (files : FileView) (analyse : Workspace → String → Workspace × Except Failure ProgramId)
    (w : Workspace) (file : String) (name : FileName) : Workspace × Except Failure ProgramId :=
  match w.readProgram files file name with
  | .error failure => (w, .error failure)
  | .ok (program, source) =>
    let id := w.programs.length
    match (w.add file name program).link analyse id program source with
    | (w, .ok ()) => (w, .ok id)
    | (w, .error failure) => (w.evictFrom id, .error failure)

/-- Analyses a file, named from the base directory, where `analyse` is used for its imports.  A
file that is registered under this name or another is not read again. -/
def analyseWith (files : FileView)
    (analyse : Workspace → String → Workspace × Except Failure ProgramId) (w : Workspace)
    (file : String) : Workspace × Except Failure ProgramId :=
  match w.get? file with
  | some id => (w, .ok id)
  | none =>
    let path := Path.join w.base file
    match files.resolve path with
    | .error fault => (w, .error (.io path fault))
    | .ok name =>
      match w.byPath.lookup name with
      | some id => ({ w with byFile := w.byFile.put file id }, .ok id)
      | none => w.load files analyse file name

def unread (files : FileView) (w : Workspace) : Nat :=
  unseen id files.names (w.byPath.map (·.1))

/-- Analyses a file and all that it imports.  Imports are followed after the file is registered,
so there are fewer files left to read. -/
def analyse (files : FileView) (w : Workspace) (file : String) :
    Workspace × Except Failure ProgramId :=
  w.analyseWith files
    (fun inner item =>
      if inner.unread files < w.unread files then inner.analyse files item
      else (inner, .error (.unsupported item)))
    file
termination_by w.unread files

def nameFromBase (w : Workspace) (path : String) : String :=
  (Path.stripBase? w.base path).getD path

def analyseAll (files : FileView) (w : Workspace) :
    List String → Workspace × Except Failure (List ProgramId)
  | [] => (w, .ok [])
  | file :: rest =>
    match w.analyse files file with
    | (w, .error failure) => (w, .error failure)
    | (w, .ok id) =>
      match w.analyseAll files rest with
      | (w, .error failure) => (w, .error failure)
      | (w, .ok ids) => (w, .ok (id :: ids))

/-- Analyses all files below a directory whose names end in a suffix, in the order of names.  Where
the listing breaks off, the files before that are analysed. -/
def analyseDirectory (files : FileView) (w : Workspace) (directory suffix : String) :
    Workspace × Except Failure (List ProgramId) :=
  let (paths, fault) := files.list directory
  let chosen := paths.filter fun path => suffix.toList.isSuffixOf (Path.lastName path).toList
  match w.analyseAll files (chosen.map w.nameFromBase), fault with
  | (w, .error failure), _ => (w, .error failure)
  | (w, .ok _), some fault => (w, .error (.io directory fault))
  | (w, .ok ids), none => (w, .ok ids.eraseDups)

end Workspace

end Idl

import Idl.Files.Tree
import Idl.Generator
import Idl.Workspace

/-!
# Builds

A build runs every generator on every program, and writes what they make below an output
directory.  Outputs are told apart by the cleaned path they go to.  A failure does not keep the
other outputs from being written.
-/

namespace Idl

structure Pending where
  data : Bytes
  origin : Origin
deriving DecidableEq, Repr

structure Build where
  programs : Arena
  registry : Registry
  directory : String
  /-- Outputs for one path are put one behind the other. -/
  merge : Bool

namespace Build

/-- The outputs by path and the failures so far, and the files as the generators left them. -/
structure Collected where
  files : FileTree
  outputs : Assoc (List Path.Component) Pending
  failures : List Failure

namespace Collected

def start (files : FileTree) : Collected := ⟨files, [], []⟩

def fail (collected : Collected) (failure : Failure) : Collected :=
  { collected with failures := collected.failures ++ [failure] }

end Collected

def path (build : Build) (output : Output) : List Path.Component :=
  Path.clean (Path.components (Path.join build.directory output.file))

def add (build : Build) (origin : Origin) (collected : Collected) (output : Output) : Collected :=
  if output.file.isEmpty then collected.fail (.unnamedOutput origin)
  else
    let path := build.path output
    match collected.outputs.lookup path with
    | none => { collected with outputs := collected.outputs ++ [(path, ⟨output.data, origin⟩)] }
    | some first =>
      if build.merge then
        let merged := { first with data := first.data ++ output.data }
        { collected with outputs := collected.outputs.put path merged }
      else collected.fail (.overwrite output.file origin first.origin)

def runGenerator (build : Build) (id : ProgramId) (program : Program) (collected : Collected)
    (generator : Generator) : Collected :=
  let (files, result) := generator.generate collected.files build.programs id program
  let collected := { collected with files }
  match result with
  | .error failure => collected.fail failure
  | .ok outputs => outputs.foldl (build.add ⟨generator.name, program.file⟩) collected

def runProgram (build : Build) (collected : Collected) (id : ProgramId) : Collected :=
  match build.programs[id]? with
  | none => collected
  | some program =>
    (build.registry.map (·.2)).foldl (build.runGenerator id program) collected

def collect (build : Build) (files : FileTree) (ids : List ProgramId) : Collected :=
  ids.foldl build.runProgram (.start files)

def reads (build : Build) (ids : List ProgramId) : List ProgramId :=
  (ids.filter (· < build.programs.length)).flatMap fun id =>
    build.registry.flatMap fun (_, generator) => generator.reads build.programs id

def writeOne (files : FileTree) (path : List Path.Component) (data : Bytes) :
    FileTree × Except Failure String :=
  let directory := path.dropLast
  match files.makeDirectories directory with
  | (files, .error fault) => (files, .error (.io (Path.render directory) fault))
  | (files, .ok ()) =>
    match files.write (Path.render path) data with
    | .error fault => (files, .error (.io (Path.render path) fault))
    | .ok files => (files, .ok (Path.render path))

/-- Writes outputs in order; gives the paths that were written and what failed. -/
def writeAll (files : FileTree) :
    List (List Path.Component × Pending) → FileTree × List String × List Failure
  | [] => (files, [], [])
  | (path, pending) :: outputs =>
    let (files, result) := writeOne files path pending.data
    let (files, written, failures) := writeAll files outputs
    match result with
    | .ok path => (files, path :: written, failures)
    | .error failure => (files, written, failure :: failures)

def run (build : Build) (files : FileTree) (ids : List ProgramId) :
    FileTree × Except Failure (List String) :=
  let collected := build.collect files ids
  let (files, written, failures) := writeAll collected.files collected.outputs
  match Failure.collect (collected.failures ++ failures) with
  | .ok () => (files, .ok written)
  | .error failure => (files, .error failure)

end Build

/-- Builds outputs from programs of a workspace.  The descriptors that were asked for are kept. -/
def Workspace.build (w : Workspace) (files : FileTree) (registry : Registry) (directory : String)
    (merge : Bool) (ids : List ProgramId) :
    Workspace × FileTree × Except Failure (List String) :=
  let build : Build := ⟨w.programs, registry, directory, merge⟩
  let (files, result) := build.run files ids
  ({ w with programs := w.programs.remember (build.reads ids) }, files, result)

end Idl

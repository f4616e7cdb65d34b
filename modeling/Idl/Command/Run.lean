import Idl.Build
import Idl.Command.Args
import Idl.Config
import Idl.Plugin

/-!
# Running the command

A run reads the configuration, analyses the schemas that are asked for and builds the outputs.
Arguments add to the generators and the settings of the configuration, and win over its switches.
-/

namespace Idl

def localConfig : String := "wctl/config.toml"

def readConfig (files : FileTree) (path : String) : Except Failure GenerateConfig := do
  unless files.contains path do throw (.config (.missingFile path))
  let source ← (files.read path).mapError (.io path)
  match GenerateConfig.ofDocument source with
  | some config => return config
  | none => throw (.config (.malformed path))

/-- The configuration that is asked for, or the local one, or that of the system, or none. -/
def findConfig (files : FileTree) (system : Option String) (asked : Option String) :
    Except Failure GenerateConfig :=
  match asked with
  | some path => readConfig files path
  | none =>
    match (localConfig :: system.toList).find? files.contains with
    | some path => readConfig files path
    | none => .ok .default

def analyseInput (files : FileTree) (args : Args) (suffix : String) (w : Workspace) :
    Workspace × Except Failure (List ProgramId) :=
  if args.files.isEmpty then w.analyseDirectory files args.input suffix
  else w.analyseAll files args.files

def generate (commands : Commands) (files : FileTree) (config : GenerateConfig) (args : Args) :
    FileTree × Except Failure (List String) :=
  match Registry.ofNames commands (config.generators ++ args.lang) (config.plugins ++ args.cmd) with
  | .error failure => (files, .error failure)
  | .ok registry =>
    if registry.isEmpty then (files, .error (.config .noGenerator))
    else
      let settings := Setting.ofTexts (config.options ++ args.options)
      let useMethodId := args.useMethodId || config.useMethodId
      let workspace := Workspace.new args.input ⟨useMethodId⟩ settings
      match analyseInput files args (args.suffix.getD config.suffix) workspace with
      | (_, .error failure) => (files, .error failure)
      | (workspace, .ok ids) =>
        let merge := args.mergeSameFile || config.mergeSameFile
        (workspace.build files registry (args.output.getD args.input) merge ids).2

/-- Runs the command on a file tree, where `system` is the path of the system's configuration and
`commands` are those that plugins start. -/
def run (commands : Commands) (files : FileTree) (system : Option String) (args : Args) :
    FileTree × Except Failure (List String) :=
  match findConfig files system args.config with
  | .error failure => (files, .error failure)
  | .ok config => generate commands files config args

end Idl

import Idl.Commands
import Idl.Generator
import Idl.Text.Blank

/-!
# Plugins

A plugin is a generator behind a command: the command reads a request and writes a response.
-/

namespace Idl

structure Plugin where
  text : String
  command : String
  args : List String
deriving DecidableEq, Repr

namespace Plugin

def ofText (text : String) : Except Failure Plugin :=
  match Text.words text with
  | [] => .error (.config .emptyCommand)
  | command :: args => .ok ⟨Text.trim text, command, args⟩

/-- Hands a request to the command and reads its response.  The command may change files. -/
def run (commands : Commands) (plugin : Plugin) (files : FileTree) (request : BuildRequest) :
    FileTree × Except Failure BuildResponse :=
  match commands files plugin.command plugin.args request.write with
  | .error fault => (files, .error (.plugin plugin.text fault))
  | .ok finished =>
    (finished.files, match finished.ending with
      | .exited 0 => (BuildResponse.decode finished.output).mapError .wire
      | .exited status => .error (.plugin plugin.text (.exited status))
      | .killed signal => .error (.plugin plugin.text (.killed signal)))

/-- The request for one program: its file, and the descriptors of all that it imports. -/
def request (arena : Arena) (id : ProgramId) (program : Program) : BuildRequest :=
  ⟨[program.file], arena.closureDescs id⟩

def generator (commands : Commands) (plugin : Plugin) : Generator where
  name := plugin.text
  reads := fun arena id => arena.importClosure id
  generate := fun files arena id program =>
    let (files, result) := plugin.run commands files (request arena id program)
    (files, result.map (·.outputs))

end Plugin

def Registry.ofNames (commands : Commands) (names plugins : List String) :
    Except Failure Registry := do
  let chosen ← names.mapM fun name =>
    match Generator.builtIn.find? (·.name == name) with
    | some generator => .ok generator
    | none => .error (.config (.unknownGenerator name))
  let made ← plugins.mapM fun text => return (← Plugin.ofText text).generator commands
  return (chosen ++ made).foldl (fun registry generator => (registry.register generator).1) []

end Idl

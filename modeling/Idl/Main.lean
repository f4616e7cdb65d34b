import Idl.Command.Run
import Idl.Shell
import Idl.Report

/-!
# The command

Reads the files that a run may need, runs it, and writes what has changed.
-/

namespace Idl.Main

def fileName (path : String) : FileName := (Path.parts path).filter (· != "")

def absolutePath (name : FileName) : String := "/" ++ "/".intercalate name

def addFiles (tree : FileTree) (path : String) : IO FileTree := do
  let start : IO.FS.DirEntry := { root := path, fileName := "" }
  unless ← start.path.pathExists do return tree
  let start ← IO.FS.realPath start.path
  let mut tree := tree
  let found ← if ← start.isDir then start.walkDir else pure #[]
  for path in #[start] ++ found do
    let name := fileName path.toString
    if ← path.isDir then
      tree := (tree.makeDirectories (.root :: name.map .normal)).1
    else
      let data := (← IO.FS.readBinFile path).toList
      tree := (tree.makeDirectories (.root :: name.dropLast.map .normal)).1
      tree := tree.store name data
  return tree

/-- Writes the nodes that are not the same in an earlier tree. -/
def writeChanges (earlier tree : FileTree) : IO Unit := do
  for (name, node) in tree.nodes do
    unless earlier.nodes.lookup name == some node do
      match node with
      | .sink | .program | .descriptor _ => pure ()
      | .directory => IO.FS.createDirAll (absolutePath name)
      | .file data => IO.FS.writeBinFile (absolutePath name) (ByteArray.mk data.toArray)

def systemConfig : IO (Option String) := do
  match ← IO.getEnv "XDG_CONFIG_HOME", ← IO.getEnv "HOME" with
  | some directory, _ => return some (Path.join directory "wctl/config.toml")
  | none, some home => return some (Path.join home ".config/wctl/config.toml")
  | none, none => return none

def printReport (report : Report) : IO Unit := do
  let code := match report.code with
    | some code => "[" ++ code ++ "]"
    | none => ""
  IO.eprintln ("error" ++ code ++ ": " ++ report.message)
  if let some help := report.help then IO.eprintln ("  help: " ++ help)

end Idl.Main

open Idl Idl.Main in
def main (texts : List String) : IO UInt32 := do
  match Args.parse? texts with
  | none =>
    IO.eprintln "usage: wctl generate [FILES]... [--input DIR] [--output DIR] [--lang NAME]..."
    return 2
  | some args =>
    let system ← systemConfig
    let here := fileName (← IO.currentDir).toString
    let paths := ["."] ++ [args.input] ++ args.output.toList ++ args.config.toList ++ system.toList
    let before ← paths.foldlM addFiles (.empty here)
    let commands := Shell.commands ⟨fun _ => none, fun _ => none⟩
    let (after, result) := run commands before system args
    writeChanges before after
    match result with
    | .ok _ => return 0
    | .error failure =>
      failure.reports.forM printReport
      return 1

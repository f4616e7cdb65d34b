import Idl.Assoc
import Idl.Path
import Idl.Text.Utf8

/-!
# File trees

Files and directories as a value.  A node is named by the names on the way to it from the root, so
that every file has one name; a path is followed from the root, through the current directory
unless it starts with a slash.  Names and paths have a greatest length, and no path holds the
character zero.
-/

namespace Idl

inductive FileFault
  | notFound
  | notOpen
  | denied
  | taken
  | notDirectory
  | isDirectory
  | nameTooLong
  | zeroInName
  | invalidText
  /-- The fault came up while the directory was being listed. -/
  | listing (path : String) (fault : FileFault)
deriving DecidableEq, Repr

namespace FileFault

def reason : FileFault → String
  | notFound => "No such file or directory"
  | notOpen => "Bad file descriptor"
  | notDirectory => "Not a directory"
  | isDirectory => "Is a directory"
  | taken => "File exists"
  | denied => "Permission denied"
  | nameTooLong => "File name too long"
  | zeroInName => "file name contained an unexpected NUL byte"
  | invalidText => "stream did not contain valid UTF-8"
  | listing path fault => "IO error for operation on " ++ path ++ ": " ++ fault.reason

def number? : FileFault → Option Nat
  | notFound => some 2
  | notOpen => some 9
  | denied => some 13
  | taken => some 17
  | notDirectory => some 20
  | isDirectory => some 21
  | nameTooLong => some 36
  | zeroInName | invalidText => none
  | listing _ fault => fault.number?

def message (fault : FileFault) : String :=
  match fault.number? with
  | some n => fault.reason ++ " (os error " ++ toString n ++ ")"
  | none => fault.reason

end FileFault

/-- The names on the way from the root. -/
abbrev FileName := List String

namespace FileName

def le : FileName → FileName → Bool
  | [], _ => true
  | _ :: _, [] => false
  | a :: as, b :: bs => if a = b then le as bs else a ≤ b

def maxPart : Nat := 255

end FileName

inductive FileNode
  | file (data : List UInt8)
  | directory
  | sink
  /-- Can be started as a command; what it holds is not known. -/
  | program
  | descriptor (number : Nat)
deriving DecidableEq, Repr

structure FileTree where
  here : FileName
  /-- All nodes but the root, which is a directory. -/
  nodes : Assoc FileName FileNode
deriving DecidableEq, Repr

namespace FileTree

def systemDirectories : List FileName :=
  [["bin"], ["dev"], ["dev", "fd"], ["etc"], ["home"], ["lib"], ["opt"], ["proc"], ["root"],
    ["run"],
    ["sbin"], ["tmp"], ["usr"], ["usr", "bin"], ["usr", "lib"], ["usr", "local"],
    ["usr", "local", "bin"], ["usr", "local", "sbin"], ["usr", "sbin"], ["var"], ["var", "tmp"]]

def commandPlaces : List FileName := [["bin"], ["usr", "bin"]]

def commandNames : List String := ["cat", "false", "printf", "sh", "true"]

def devices : List (FileName × FileNode) :=
  (["dev", "null"], .sink) :: (["dev", "stdin"], .descriptor 0) ::
    (["dev", "stdout"], .descriptor 1) :: (["dev", "stderr"], .descriptor 2) ::
    (List.range 10).map fun n => (["dev", "fd", toString n], .descriptor n)

def empty (here : FileName) : FileTree :=
  { here
    nodes := systemDirectories.map (·, .directory) ++ devices ++
      (commandPlaces.flatMap fun place => commandNames.map fun name => (place ++ [name], .program))
      ++ (List.range here.length).map fun n => (here.take (n + 1), .directory) }

def node? (tree : FileTree) (name : FileName) : Option FileNode :=
  if name.isEmpty then some .directory else tree.nodes.lookup name

def put (tree : FileTree) (name : FileName) (node : FileNode) : FileTree :=
  { tree with nodes := tree.nodes.put name node }

def fileNames (tree : FileTree) : List FileName :=
  tree.nodes.filterMap fun
    | (name, .file _) => some name
    | _ => none

/-- The node with a plain name in a directory, whether it is there or not. -/
def child (tree : FileTree) (place : FileName) (part : String) : Except FileFault FileName :=
  match tree.node? place with
  | none => .error .notFound
  | some .directory =>
    if part.utf8ByteSize > FileName.maxPart then .error .nameTooLong else .ok (place ++ [part])
  | some _ => .error .notDirectory

def follow (tree : FileTree) (place : FileName) : List String → Except FileFault FileName
  | [] => .ok place
  | part :: parts => do
    let name ← tree.child place part
    if part = "" || part = "." then tree.follow place parts
    else if part = ".." then tree.follow place.dropLast parts
    else if (tree.node? name).isSome then tree.follow name parts
    else .error .notFound

def start (tree : FileTree) (path : String) : FileName :=
  if Path.isAbsolute path then [] else tree.here

/-- The name of the node that a path leads to, which is found part by part. -/
def resolve (tree : FileTree) (path : String) : Except FileFault FileName :=
  if path.toList.contains '\x00' then .error .zeroInName
  else if path.isEmpty then .error .notFound
  else tree.follow [] (tree.start path ++ Path.parts path)

/-- The number of bytes that a path may have that is followed at once. -/
def maxPath : Nat := 4095

def checkPath (path : String) : Except FileFault Unit :=
  if path.toList.contains '\x00' then .error .zeroInName
  else if path.isEmpty then .error .notFound
  else if path.utf8ByteSize > maxPath then .error .nameTooLong
  else .ok ()

/-- The name of the node that a path leads to, which is followed at once. -/
def find (tree : FileTree) (path : String) : Except FileFault FileName := do
  checkPath path
  tree.resolve path

def contains (tree : FileTree) (path : String) : Bool := (tree.find path).toOption.isSome

def isDirectory (tree : FileTree) (path : String) : Bool :=
  match tree.find path with
  | .ok name => tree.node? name == some .directory
  | .error _ => false

def bytesOf (tree : FileTree) (name : FileName) : Except FileFault (List UInt8) :=
  match tree.node? name with
  | none => .error .notFound
  | some .directory => .error .isDirectory
  | some (.file data) => .ok data
  | some _ => .ok []

def readName (tree : FileTree) (name : FileName) : Except FileFault String := do
  match Text.decodeUtf8 (← tree.bytesOf name) with
  | .ok text => return text
  | .error _ => throw .invalidText

def read (tree : FileTree) (path : String) : Except FileFault String := do
  tree.readName (← tree.find path)

/-- The directory that the last part of a path is in, and the last part; a path of slashes has
none. -/
def lastPlace (tree : FileTree) (path : String) : Except FileFault (FileName × Option String) := do
  checkPath path
  match ((Path.parts path).reverse.dropWhile (· == "")) with
  | [] => return ([], none)
  | last :: before => return (← tree.follow [] (tree.start path ++ before.reverse), some last)

def makeOne (tree : FileTree) (path : String) : Except FileFault FileTree := do
  match ← tree.lastPlace path with
  | (_, none) => throw .taken
  | (place, some last) =>
    let name ← tree.child place last
    if last = "." || last = ".." || (tree.node? name).isSome then throw .taken
    else return tree.put name .directory

/-- Makes the directory of a path, given last component first, and those it is in.  The ones that
could be made stay when another cannot. -/
def makeAll (tree : FileTree) : List Path.Component → FileTree × Except FileFault Unit
  | [] => (tree, .ok ())
  | last :: before =>
    let path := Path.render (last :: before).reverse
    let make (tree : FileTree) : FileTree × Except FileFault Unit :=
      match tree.makeOne path with
      | .ok tree => (tree, .ok ())
      | .error fault => (tree, if tree.isDirectory path then .ok () else .error fault)
    match tree.makeOne path with
    | .error .notFound =>
      match tree.makeAll before with
      | (tree, .ok ()) => make tree
      | failed => failed
    | _ => make tree

def makeDirectories (tree : FileTree) (components : List Path.Component) :
    FileTree × Except FileFault Unit :=
  tree.makeAll components.reverse

def writeName (tree : FileTree) (path : String) : Except FileFault FileName := do
  match ← tree.lastPlace path with
  | (_, none) => throw .isDirectory
  | (place, some last) =>
    if last = "." || last = ".." then
      discard (tree.child place last)
      throw .isDirectory
    else if path.toList.getLast? == some '/' then throw .isDirectory
    else
      let name ← tree.child place last
      if tree.node? name == some .directory then throw .isDirectory else return name

def store (tree : FileTree) (name : FileName) (data : List UInt8) : FileTree :=
  match tree.node? name with
  | none | some (.file _) => tree.put name (.file data)
  | some _ => tree

def write (tree : FileTree) (path : String) (data : List UInt8) : Except FileFault FileTree := do
  return tree.store (← tree.writeName path) data

def below (tree : FileTree) (name : FileName) : List FileName :=
  (tree.fileNames.filterMap fun file =>
      if name.isPrefixOf file then some (file.drop name.length) else none).mergeSort FileName.le

/-- The paths of the files below a directory, or of the file that the path itself leads to. -/
def list (tree : FileTree) (path : String) : Except FileFault (List String) :=
  match tree.find path with
  | .error fault => .error (.listing path fault)
  | .ok name => .ok ((tree.below name).map fun way => way.foldl Path.join path)

def entries (tree : FileTree) (name : FileName) : List String :=
  tree.nodes.filterMap fun (other, _) =>
    if other.dropLast == name && !other.isEmpty then other.getLast? else none

end FileTree

end Idl

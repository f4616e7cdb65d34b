import Idl.Commands
import Idl.Shell.Script

/-!
# Sessions

What a running script has: files, and channels to read from and write to, which it shares with the
commands it starts; variables, functions and settings of its own.
-/

namespace Idl

def Ending.status : Ending → Nat
  | .exited status => status
  | .killed signal => 128 + signal

namespace Shell

inductive Channel
  | source (rest : Chars)
  | gatherer (written : Chars)
  | file (name : FileName) (offset : Nat) (reads writes appends : Bool)

structure Session where
  files : FileTree
  channels : List Channel
  /-- The channels by the numbers that the script knows them by. -/
  fds : Assoc Nat Nat
  vars : Assoc Chars Chars
  exported : List Chars
  constant : List Chars := []
  functions : Assoc Chars Command := []
  aliases : Assoc Chars Chars := []
  /-- What to run for signals, where zero stands for the end of the script. -/
  traps : Assoc Nat Chars := []
  signals : List Nat := []
  options : List Char := []
  name : Chars := []
  args : List Chars := []
  /-- The argument to look at next for options, and how much was read of the one before. -/
  cursor : Nat × Nat := (1, 0)
  id : Nat
  /-- The statuses of commands in the background. -/
  jobs : Assoc Nat Nat := []
  status : Nat := 0
  /-- The status of the last script whose output was put in. -/
  outputStatus : Option Nat := none
  mask : Nat := 18
  /-- Something waits for the status, so that a failure does not end the script. -/
  tested : Bool := false
  loops : Nat := 0
  /-- What variables were before functions made them their own, for each function that runs. -/
  saved : List (List (Chars × Option Chars)) := []

namespace Session

def gathered (s : Session) (id : Nat) : Chars :=
  match s.channels[id]? with
  | some (.gatherer text) => text
  | _ => []

/-- The session after another one that shares its files and channels. -/
def sharing (s other : Session) : Session :=
  { s with files := { other.files with here := s.files.here }, channels := other.channels }

def searchPath (s : Session) : List Chars :=
  ((s.vars.lookup "PATH".toList).getD []).splitOnP (· = ':')

end Session

inductive Stop
  | exit (status : Nat)
  | returned (status : Nat)
  | leave (count : Nat)
  | again (count : Nat)
  | killed (signal : Nat)

abbrev Run := ExceptT Stop (StateM Session)

namespace Run

def setStatus (status : Nat) : Run Unit := modify fun s => { s with status }

/-- Ends the script over a fault of its own. -/
def fail {α : Type} : Run α := throw (.exit 2)

def channel? (fd : Nat) : Run (Option (Nat × Channel)) := do
  let s ← get
  return (s.fds.lookup fd).bind fun id => (s.channels[id]?).map (id, ·)

def setChannel (id : Nat) (channel : Channel) : Run Unit :=
  modify fun s => { s with channels := s.channels.set id channel }

def write (fd : Nat) (text : Chars) : Run Bool := do
  match ← channel? fd with
  | some (id, .gatherer written) =>
    setChannel id (.gatherer (written ++ text))
    return true
  | some (id, .file name offset reads true appends) =>
    let files := (← get).files
    let old := Chars.ofBytes ((files.bytesOf name).toOption.getD [])
    let offset := if appends then old.length else offset
    let new := old.take offset ++ List.replicate (offset - old.length) '\x00' ++ text ++
      old.drop (offset + text.length)
    modify fun s => { s with files := files.store name (Chars.toBytes new) }
    setChannel id (.file name (offset + text.length) reads true appends)
    return true
  | _ => return text.isEmpty

/-- Takes the first part of what there is to read, as long as `count` says. -/
def read (fd : Nat) (count : Chars → Nat) : Run (Option Chars) := do
  match ← channel? fd with
  | some (id, .source rest) =>
    setChannel id (.source (rest.drop (count rest)))
    return some (rest.take (count rest))
  | some (id, .file name offset true writes appends) =>
    let .ok data := (← get).files.bytesOf name | return none
    let rest := Chars.ofBytes (data.drop offset)
    setChannel id (.file name (offset + count rest) true writes appends)
    return some (rest.take (count rest))
  | _ => return none

/-- Writes output, and gives the status of the command unless that fails. -/
def say (status : Nat) (text : Chars) : Run Nat :=
  return if ← write 1 text then status else max status 1

def connect (fd : Nat) (channel : Channel) : Run Unit :=
  modify fun s => { s with
    channels := s.channels ++ [channel], fds := s.fds.put fd s.channels.length }

def openFile (fd : Nat) (path : Chars) (reads writes appends : Bool) : Run Bool := do
  let s ← get
  let found := if writes then s.files.writeName path.toText else s.files.find path.toText
  let .ok name := found | return false
  match s.files.node? name with
  | some (.descriptor other) =>
    let some id := s.fds.lookup other | return false
    set { s with fds := s.fds.put fd id }
  | node =>
    unless node.isSome && (reads || appends) do set { s with files := s.files.store name [] }
    connect fd (.file name 0 reads writes appends)
  return true

def value? (name : String) : Run (Option Chars) := return (← get).vars.lookup name.toList

def separators : Run Chars := return (← value? "IFS").getD [' ', '\t', '\n']

def assign (name value : Chars) : Run Unit := do
  let s ← get
  if !isName name || s.constant.contains name then fail
  set { s with
    vars := s.vars.put name value
    exported := if s.options.contains 'a' then name :: s.exported else s.exported
    cursor := if name = "OPTIND".toList then (Text.ofDigits 10 value, 0) else s.cursor }

def restore (name : Chars) (value : Option Chars) : Run Unit :=
  modify fun s => { s with
    vars := value.elim (s.vars.filter (·.1 != name)) fun value => s.vars.put name value }

/-- Runs something while its status is waited for. -/
def testing (act : Run Unit) : Run Unit := do
  let before := (← get).tested
  modify fun s => { s with tested := true }
  act
  modify fun s => { s with tested := before }

end Run

/-- Commands that need nothing but a session, by name: those that can be started, and those that are
at hand in a script. -/
structure Utilities where
  started : String → Option (List Chars → Run Nat)
  builtIn : String → Option (List Chars → Run Nat)

/-- The name of the command that a path leads to. -/
def programAt (files : FileTree) (path : Chars) : Except FileFault Chars := do
  let name ← files.find path.toText
  if files.node? name = some .program then return (name.getLast?.getD "").toList else throw .denied

/-- Finds a command, in directories unless its name has a slash: the path to it and its name.  A
file that cannot be started is remembered as the reason. -/
def findProgram (s : Session) (name : Chars) : Except FileFault (Chars × Chars) :=
  let paths := if name.contains '/' then [name] else if name.isEmpty then []
    else s.searchPath.map fun place => if place.isEmpty then name else place ++ '/' :: name
  let isMissing (fault : FileFault) : Bool :=
    !name.contains '/' && (fault = .notFound || fault = .notDirectory)
  paths.foldl (fun found path => match found, programAt s.files path with
    | .ok found, _ => .ok found
    | .error _, .ok program => .ok (path, program)
    | .error known, .error fault => .error (if isMissing fault then known else fault))
    (.error .notFound)

end Shell

end Idl

import Idl.Shell.Builtin

/-!
# A shell

A shell that runs scripts of utilities.  A command of a script changes the session and leaves a
status; a subshell changes a copy of the session.  Scripts that do not end are stopped after a
number of steps.
-/

namespace Idl.Shell

/-- Ends the script if the last command failed, nothing waits for its status, and failures are to
end it. -/
def checkStatus : Run Unit := do
  let s ← get
  if s.options.contains 'e' && !s.tested && s.status ≠ 0 then throw (.exit s.status)

/-- Leaves a loop, goes on with its next round, or goes on to the loops around. -/
def orLeave (round next : Run Unit) : Run Unit := fun s =>
  match round.run s with
  | (.ok _, s) => next.run s
  | (.error (.leave (n + 2)), s) => (.error (.leave (n + 1)), { s with loops := s.loops - 1 })
  | (.error (.leave _), s) => (.ok (), { s with status := 0 })
  | (.error (.again (n + 2)), s) => (.error (.again (n + 1)), { s with loops := s.loops - 1 })
  | (.error (.again _), s) => next.run { s with status := 0 }
  | stopped => stopped

def inLoop (act : Run Unit) : Run Unit := do
  modify fun s => { s with loops := s.loops + 1 }
  act
  modify fun s => { s with loops := s.loops - 1 }

/-- What running a command takes: running others, and what is given as a text. -/
structure Runner where
  utilities : Utilities
  command : Command → Run Unit
  text : Chars → Run Unit
  shell : Chars → List Chars → Session → Session × Ending

namespace Runner

variable (r : Runner)

def script (script : Script) : Run Unit := script.forM r.command

/-- Ends a script: runs what is to be run at its end. -/
def conclude (result : Except Stop Unit) (s : Session) : Session × Ending :=
  let finish (status : Nat) : Session × Ending :=
    let action := (s.traps.lookup 0).getD []
    match (r.text action).run { s with status, traps := s.traps.filter (·.1 != 0) } with
    | (.error (.exit status), after) => (after, .exited (status % 256))
    | (.error (.killed signal), after) => (after, .killed signal)
    | (_, after) => (after, .exited (status % 256))
  match result with
  | .error (.exit status) | .error (.returned status) => finish status
  | .error (.killed signal) => (s, .killed signal)
  | _ => finish s.status

/-- Runs something in a subshell, where no status is waited for unless it is here. -/
def apart (tested : Bool) (act : Run Unit) : Run Ending := fun before =>
  let (result, after) := act.run { before with
    traps := before.traps.filter (·.2.isEmpty), jobs := [], tested := tested && before.tested }
  let (after, ending) := r.conclude result after
  (.ok ending, before.sharing after)

def output (script : Script) : Run Chars := do
  let s ← get
  let ending ← r.apart false do
    Run.connect 1 (.gatherer [])
    r.script script
  modify fun s => { s with outputStatus := some ending.status }
  return ((← get).gathered s.channels.length).filter (· ≠ '\x00')

/-- Runs commands each on the output of the one before. -/
def pipe (input : Option Nat) : List Command → Run Ending
  | [] => return .exited 0
  | command :: commands => do
    let id := (← get).channels.length
    let ending ← r.apart true do
      modify fun s => { s with fds := input.elim s.fds fun id => s.fds.put 0 id }
      unless commands.isEmpty do Run.connect 1 (.gatherer [])
      r.command command
    if commands.isEmpty then return ending
    Run.setChannel id (.source ((← get).gathered id))
    pipe (some id) commands

def redirect : Redirection → Run Bool
  | .document fd text => do
    let text ← textOf r.output text
    Run.connect fd (.source text)
    return true
  | .file fd operator word => do
    let target ← textOf r.output word
    let s ← get
    match operator with
    | "<" => Run.openFile fd target true false false
    | "<>" => Run.openFile fd target true true false
    | ">>" => Run.openFile fd target false true true
    | ">" | ">|" =>
      let kept := operator = ">" && s.options.contains 'C' && (nodeAt? s.files target).isSome
      if kept then return false else Run.openFile fd target false true false
    | _ =>
      if target = ['-'] then
        set { s with fds := s.fds.filter (·.1 != fd) }
        return true
      let some id := s.fds.lookup (← natural target) | return false
      set { s with fds := s.fds.put fd id }
      return true

/-- Runs something with redirections, which stay if the command says so. -/
def redirected (stay : Bool) (redirections : List Redirection) (act : Run Unit) : Run Unit := do
  let before := (← get).fds
  if ← redirections.allM r.redirect then act else Run.setStatus 2
  unless stay do modify fun s => { s with fds := before }

def callFunction (body : Command) (args : List Chars) : Run Unit := fun before =>
  let (result, after) := (r.command body).run
    { before with args, cursor := (1, 0), saved := [] :: before.saved, loops := 0 }
  let own := after.saved.headD []
  let (_, after) := (own.forM fun (name, value) => Run.restore name value).run after
  let after := { after with
    args := before.args, cursor := before.cursor, saved := before.saved, loops := before.loops }
  match result with
  | .error (.returned status) => (.ok (), { after with status })
  | .error (.leave _) | .error (.again _) => (.ok (), after)
  | _ => (result, after)

/-- Starts a command that is none of the session's. -/
def start (name : Chars) (args : List Chars) : Run Ending := do
  let s ← get
  match findProgram s name with
  | .error fault => return .exited (if fault = .denied then 126 else 127)
  | .ok (_, program) =>
    if program = "sh".toList then
      let (after, ending) := r.shell name args { s with id := s.id + 1 }
      set (s.sharing after)
      return ending
    let some utility := r.utilities.started (String.ofList program) | return .exited 126
    r.apart false do tryCatch (do Run.setStatus (← utility args)) fun _ => Run.setStatus 1

def replace (name : Chars) (args : List Chars) : Run Nat := do
  let ending ← r.start name args
  modify fun s => { s with traps := [] }
  match ending with
  | .exited status => throw (.exit status)
  | .killed signal => throw (.killed signal)

def source (path : Chars) : Run Nat := do
  let s ← get
  let paths := if path.contains '/' then [path] else s.searchPath.map (· ++ '/' :: path)
  let some data := paths.findSome? fun path =>
      (s.files.find path.toText).toOption.bind fun name => (s.files.bytesOf name).toOption
    | Run.fail
  tryCatch (r.text (Chars.ofBytes data)) fun
    | .returned status => Run.setStatus status
    | stop => throw stop
  return (← get).status

def regular (text : String) : Option (List Chars → Run Nat) :=
  regular? text <|> r.utilities.builtIn text

/-- Tells what is run for a name. -/
def describe (name : Chars) : Run Nat := do
  let s ← get
  let text := String.ofList name
  if (s.functions.lookup name).isSome || (special? text).isSome || (r.regular text).isSome then
    return ← Run.say 0 (name ++ ['\n'])
  match findProgram s name with
  | .ok (path, _) => Run.say 0 (path ++ ['\n'])
  | .error _ => return 127

def special (name : Chars) (args : List Chars) : Option (Run Nat) :=
  match String.ofList name, args with
  | "eval", args => some do
    Run.setStatus 0
    r.text ([' '].intercalate args)
    return (← get).status
  | ".", path :: _ => some (r.source path)
  | "exec", [] => some (return 0)
  | "exec", name :: args => some (r.replace name args)
  | text, args => (special? text).map (· args)

/-- Runs a command that is named by words; one behind `command` is no function. -/
def invoke : Nat → Bool → Chars → List Chars → Run Unit
  | 0, _, _, _ => Run.fail
  | fuel + 1, direct, name, args => do
    let s ← get
    let text := String.ofList name
    match r.special name args, if direct then none else s.functions.lookup name, r.regular text with
    | some act, _, _ => Run.setStatus (← act)
    | none, some body, _ => r.callFunction body args
    | none, none, some act =>
      tryCatch (do Run.setStatus (← act args)) fun
        | .exit status => Run.setStatus status
        | stop => throw stop
    | none, none, none =>
      match text, args with
      | "command", ['-', 'v'] :: name :: _ => Run.setStatus (← r.describe name)
      | "command", name :: args => invoke fuel true name args
      | _, _ => Run.setStatus (← r.start name args).status

/-- Runs what is to be run for the signals that came. -/
def receive : Run Unit := do
  let s ← get
  set { s with signals := [] }
  for signal in s.signals do
    let status := (← get).status
    r.text ((s.traps.lookup signal).getD [])
    Run.setStatus status

def simple (assignments : List (Chars × Word)) (words : List Word)
    (redirections : List Redirection) : Run Unit := do
  modify fun s => { s with outputStatus := none }
  let fields ← fieldsOf r.output words
  let before ← get
  let assignAll : Run Unit := do
    for (name, word) in assignments do Run.assign name (← textOf r.output word)
  match fields with
  | [] => r.redirected false redirections do
    assignAll
    Run.setStatus ((← get).outputStatus.getD 0)
  | name :: args =>
    r.redirected (name = "exec".toList) redirections do
      assignAll
      if (r.special name args).isSome then r.invoke 100 false name args
      else
        modify fun s => { s with exported := assignments.map (·.1) ++ s.exported }
        r.invoke 100 false name args
        for (name, _) in assignments do Run.restore name (before.vars.lookup name)
        unless assignments.isEmpty do modify fun s => { s with exported := before.exported }
    r.receive

def rounds (wanted : Bool) (test body : Script) : Nat → Nat → Run Unit
  | 0, _ => throw (.killed 9)
  | fuel + 1, status =>
    orLeave (Run.testing (r.script test)) do
      if ((← get).status = 0) ≠ wanted then Run.setStatus status
      else orLeave (r.script body) do rounds wanted test body fuel (← get).status

def eachItem (name : Chars) (body : Script) : List Chars → Run Unit
  | [] => return ()
  | item :: items => do
    Run.assign name item
    orLeave (r.script body) (eachItem name body items)

def select (text : Chars) : List (List Word × Script) → Run Unit
  | [] => Run.setStatus 0
  | (patterns, body) :: branches => do
    if ← patterns.anyM fun word => do return fits (patternOf (← glyphsOf r.output word)) text then
      if body.isEmpty then Run.setStatus 0 else r.script body
    else select text branches

def run (steps : Nat) : Command → Run Unit
  | .simple assignments words redirections => do
    r.simple assignments words redirections
    checkStatus
  | .pipeline true commands => do
    Run.testing (r.command (.pipeline false commands))
    Run.setStatus (if (← get).status = 0 then 1 else 0)
  | .pipeline false [command] => r.command command
  | .pipeline false commands => do
    Run.setStatus (← r.pipe none commands).status
    checkStatus
  | .follow ifZero first second => do
    Run.testing (r.command first)
    if ((← get).status = 0) = ifZero then r.command second
  | .background command => do
    let ending ← r.apart false do
      Run.connect 0 (.source [])
      r.command command
    modify fun s => { s with
      status := 0, jobs := s.jobs.put (s.id + 1001 + s.jobs.length) ending.status }
  | .subshell body => do
    Run.setStatus (← r.apart true (r.script body)).status
    checkStatus
  | .group body => r.script body
  | .redirected command redirections => do
    r.redirected false redirections (r.command command)
    checkStatus
  | .choice test yes no => do
    Run.testing (r.script test)
    let holds := (← get).status = 0
    Run.setStatus 0
    r.script (if holds then yes else no)
  | .loop wanted test body => inLoop (r.rounds wanted test body steps 0)
  | .each name words body => do
    let items ← fieldsOf r.output words
    if items.isEmpty then Run.setStatus 0
    inLoop (r.eachItem name body items)
  | .select word branches => do r.select (← textOf r.output word) branches
  | .function name body =>
    modify fun s => { s with functions := s.functions.put name body, status := 0 }

/-- Runs the text of a script, line by line. -/
def runText : Nat → Chars → Run Unit
  | 0, _ => throw (.killed 9)
  | fuel + 1, text => do
    match readLine.run ⟨text.filter (· ≠ '\x00'), (← get).aliases⟩ with
    | none => Run.fail
    | some (none, _) => return ()
    | some (some script, input) =>
      r.script script
      runText fuel input.rest

/-- Runs a shell with arguments, where the session is that of the one who starts it. -/
def runShell (called : Chars) (args : List Chars) (s : Session) : Session × Ending :=
  let own : Assoc Chars Chars := [("IFS".toList, [' ', '\t', '\n']), ("OPTIND".toList, ['1']),
    ("PPID".toList, digits (s.id - 1)), ("PWD".toList, hereText s.files)]
  let inherited := s.vars.filter fun (name, _) => s.exported.contains name
  let fresh : Session := {
    files := s.files, channels := s.channels, fds := s.fds
    vars := own.foldl (fun vars (name, value) => vars.put name value) inherited
    exported := s.exported, id := s.id, mask := s.mask, traps := s.traps.filter (·.2.isEmpty) }
  let isText := args.any fun arg => arg.head? = some '-' && arg.contains 'c'
  let args := args.map fun arg => if arg.head? = some '-' then arg.filter (· ≠ 'c') else arg
  let become (name : Chars) (args : List Chars) : Run Unit :=
    modify fun inner => { inner with name, args, fds := s.fds }
  let act : Run Unit := do
    match isText, (← setOptions (args.length + 1) args).getD [] with
    | true, [] => Run.fail
    | true, text :: rest =>
      become (rest.headD called) rest.tail
      r.text text
    | false, [] =>
      setOption true 's'
      become called []
      r.text ((← Run.read 0 (·.length)).getD [])
    | false, path :: args =>
      unless ← Run.openFile 10 path true false false do Run.fail
      let text := (← Run.read 10 (·.length)).getD []
      become path args
      r.text text
  let (result, after) := act.run fresh
  r.conclude result after

/-- What is run within a number of steps. -/
def ofSteps (utilities : Utilities) : Nat → Runner
  | 0 =>
    let stop {α : Type} : Run α := throw (.killed 9)
    ⟨utilities, fun _ => stop, fun _ => stop, fun _ _ s => (s, .killed 9)⟩
  | steps + 1 =>
    let r := ofSteps utilities steps
    ⟨utilities, r.run 20000, r.runText 20000, r.runShell⟩

end Runner

/-- The commands of a system that has only the shell and some utilities. -/
def commands (utilities : Utilities) : Commands := fun files name args input =>
  let path := "/usr/local/sbin:/usr/local/bin:/usr/sbin:/usr/bin:/sbin:/bin"
  let session : Session := {
    files, channels := [.source (Chars.ofBytes input), .gatherer [], .gatherer []]
    fds := [(0, 0), (1, 1), (2, 2)], vars := [("PATH".toList, path.toList)]
    exported := ["PATH".toList], id := 99 }
  if (name :: args).any (·.toList.contains '\x00') then .error .zeroInCommand
  else
    match findProgram session (Chars.ofString name) with
    | .error fault => .error (.notStarted fault)
    | .ok _ =>
      let runner := Runner.ofSteps utilities 300
      let act := runner.start (Chars.ofString name) (args.map Chars.ofString)
      let (result, after) : Except Stop Ending × Session := act.run session
      .ok ⟨after.files, result.toOption.getD (.killed 9), Chars.toBytes (after.gathered 1)⟩

end Idl.Shell

/-!
# Arguments

The arguments of the command line.  An option is written long or short, its value attached or as
the next argument; only a value that is attached may begin with a hyphen.
-/

namespace Idl

inductive Flag
  | config
  | logLevel
  | input
  | output
  | lang
  | cmd
  | option
  | useMethodId
  | suffix
  | mergeSameFile
deriving DecidableEq, Repr

namespace Flag

def long : Flag → String
  | config => "config"
  | logLevel => "log-level"
  | input => "input"
  | output => "output"
  | lang => "lang"
  | cmd => "cmd"
  | option => "option"
  | useMethodId => "use-method-id"
  | suffix => "suffix"
  | mergeSameFile => "merge-same-file"

def short? : Flag → Option Char
  | input => some 'i'
  | output => some 'o'
  | lang => some 'l'
  | cmd => some 'c'
  | option => some 'O'
  | _ => none

def takesValue : Flag → Bool
  | useMethodId | mergeSameFile => false
  | _ => true

def isRepeatable : Flag → Bool
  | lang | cmd | option => true
  | _ => false

def general : List Flag := [config, logLevel]

def all : List Flag :=
  [config, logLevel, input, output, lang, cmd, option, useMethodId, suffix, mergeSameFile]

end Flag

inductive Argument
  | flag (flag : Flag) (value : String)
  | file (name : String)
deriving DecidableEq, Repr

namespace Argument

/-- Whether an argument is an option and no value; a hyphen alone is a value. -/
def isOption (text : String) : Bool := text.toList.head? == some '-' && text != "-"

def splitEquals (cs : List Char) : List Char × Option String :=
  match cs.dropWhile (· != '=') with
  | [] => (cs, none)
  | _ :: value => (cs.takeWhile (· != '='), some (String.ofList value))

/-- The value behind a short option; an equals sign before it does not count. -/
def attached? : List Char → Option String
  | [] => none
  | '=' :: cs => some (String.ofList cs)
  | cs => some (String.ofList cs)

def flag? (allowed : List Flag) (text : String) : Option (Flag × Option String) :=
  match text.toList with
  | '-' :: '-' :: cs =>
    let (name, value) := splitEquals cs
    (allowed.find? (·.long.toList == name)).map (·, value)
  | '-' :: c :: cs => (allowed.find? (·.short? == some c)).map (·, attached? cs)
  | _ => none

/-- Reads the option at the front; tells whether the next argument was its value. -/
def readFlag? (allowed : List Flag) (text : String) (next : Option String) :
    Option (Argument × Bool) := do
  let (found, value) ← flag? allowed text
  match found.takesValue, value, next with
  | true, some value, _ => return (flag found value, false)
  | true, none, some value => if isOption value then none else return (flag found value, true)
  | true, none, none => none
  | false, none, _ => return (flag found "", false)
  | false, some _, _ => none

/-- Reads options up to the first argument that is none; gives what is left from there on. -/
def readFlags (allowed : List Flag) : List String → Option (List Argument × List String)
  | [] => some ([], [])
  | text :: rest =>
    if text = "--" || !isOption text then some ([], text :: rest)
    else
      match readFlag? allowed text rest.head? with
      | none => none
      | some (argument, more) =>
        (readFlags allowed (if more then rest.tail else rest)).map fun (arguments, left) =>
          (argument :: arguments, left)
termination_by texts => texts.length
decreasing_by split <;> simp only [List.length_tail, List.length_cons] <;> omega

/-- Reads options and files; behind two hyphens there are only files. -/
def readAll (allowed : List Flag) : List String → Option (List Argument)
  | [] => some []
  | text :: rest =>
    if text = "--" then some (rest.map file)
    else if !isOption text then (readAll allowed rest).map (file text :: ·)
    else
      match readFlag? allowed text rest.head? with
      | none => none
      | some (argument, more) =>
        (readAll allowed (if more then rest.tail else rest)).map (argument :: ·)
termination_by texts => texts.length
decreasing_by
  · simp only [List.length_cons, Nat.lt_add_one]
  · split <;> simp only [List.length_tail, List.length_cons] <;> omega

def values (arguments : List Argument) (wanted : Flag) : List String :=
  arguments.filterMap fun
    | flag found value => if found = wanted then some value else none
    | file _ => none

def files (arguments : List Argument) : List String :=
  arguments.filterMap fun
    | flag _ _ => none
    | file name => some name

def areConsistent (arguments : List Argument) : Bool :=
  Flag.all.all fun flag => flag.isRepeatable || (values arguments flag).length ≤ 1

end Argument

structure Args where
  config : Option String
  logLevel : String
  files : List String
  input : String
  output : Option String
  lang : List String
  cmd : List String
  options : List String
  useMethodId : Bool
  suffix : Option String
  mergeSameFile : Bool
deriving DecidableEq, Repr

/-- Reads the arguments behind the name of the command.  An option before the command counts only
if it is not given behind it. -/
def Args.parse? (texts : List String) : Option Args := do
  let (before, texts) ← Argument.readFlags Flag.general texts
  match texts with
  | "generate" :: texts =>
    let behind ← Argument.readAll Flag.all texts
    guard (Argument.areConsistent before && Argument.areConsistent behind)
    let last? (flag : Flag) : Option String :=
      (Argument.values behind flag).head?.or (Argument.values before flag).head?
    return {
      config := last? .config
      logLevel := (last? .logLevel).getD "info"
      files := Argument.files behind
      input := (last? .input).getD "."
      output := last? .output
      lang := Argument.values behind .lang
      cmd := Argument.values behind .cmd
      options := Argument.values behind .option
      useMethodId := (last? .useMethodId).isSome
      suffix := last? .suffix
      mergeSameFile := (last? .mergeSameFile).isSome }
  | _ => none

end Idl

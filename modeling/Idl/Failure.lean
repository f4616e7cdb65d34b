import Idl.Diagnostic
import Idl.Files.Tree
import Idl.Signal
import Idl.Wire.Basic

/-!
# Failures

Everything that can go wrong between the command line and the written files.  A failure inside an
imported file is wrapped once for every import on the way to it.
-/

namespace Idl

inductive PluginFault
  | notStarted (fault : FileFault)
  | zeroInCommand
  | exited (status : Nat)
  | killed (signal : Nat)
deriving DecidableEq, Repr

def PluginFault.message : PluginFault → String
  | notStarted fault => "cannot start process: " ++ fault.message
  | zeroInCommand => "cannot start process: nul byte found in provided data"
  | exited status => "process exited with exit status: " ++ toString status
  | killed signal =>
    "process exited with signal: " ++ toString signal ++
      (Signal.name? signal).elim "" fun name => " (SIG" ++ name ++ ")"

inductive ConfigFault
  | emptyCommand
  | unknownGenerator (name : String)
  | noGenerator
  | missingFile (path : String)
  | malformed (path : String)
deriving DecidableEq, Repr

def ConfigFault.message : ConfigFault → String
  | emptyCommand => "plugin command is empty"
  | unknownGenerator name => "unknown generator `" ++ name ++ "`"
  | noGenerator => "no generator selected, use --lang or --cmd"
  | missingFile path => "Missing configuration file: " ++ path
  | malformed path => "Failed to parse TOML configuration " ++ path

structure Origin where
  generator : String
  file : String
deriving DecidableEq, Repr

inductive Failure
  | io (path : String) (fault : FileFault)
  | parse (diagnostics : List Diagnostic) (file source : String)
  | imported (file importer : String) (cause : Failure)
  | unsupported (file : String)
  | generate (origin : Origin) (message : String)
  | overwrite (output : String) (second first : Origin)
  | unnamedOutput (origin : Origin)
  | plugin (command : String) (fault : PluginFault)
  | wire (fault : WireFault)
  | config (fault : ConfigFault)
  | multiple (failures : List Failure)
deriving Repr

namespace Failure

mutual

def message : Failure → String
  | io path fault => "I/O error on `" ++ path ++ "`: " ++ fault.message
  | parse diagnostics file _ => file ++ ": " ++ Diagnostic.summary diagnostics
  | imported file importer _ =>
    "failed to analyse `" ++ file ++ "` imported by `" ++ importer ++ "`"
  | unsupported file => "no parser registered for file `" ++ file ++ "`"
  | generate origin message =>
    "generator `" ++ origin.generator ++ "` failed on `" ++ origin.file ++ "`: " ++ message
  | overwrite output second first =>
    "output `" ++ output ++ "` of generator `" ++ second.generator ++ "` for `" ++ second.file
      ++ "` overwrites the output of generator `" ++ first.generator ++ "` for `" ++ first.file
      ++ "`"
  | unnamedOutput origin =>
    "generator `" ++ origin.generator ++ "` produced an output without a file name for `"
      ++ origin.file ++ "`"
  | plugin command fault => "plugin `" ++ command ++ "` failed: " ++ fault.message
  | wire fault => "plugin wire format error: " ++ fault.message
  | config fault => "configuration error: " ++ fault.message
  | multiple failures => toString failures.length ++ " errors occurred" ++ bullets failures

def bullets : List Failure → String
  | [] => ""
  | failure :: failures => "\n  - " ++ failure.message ++ bullets failures

end

/-- Failures taken together: none is success, and one stands for itself. -/
def collect : List Failure → Except Failure Unit
  | [] => .ok ()
  | [failure] => .error failure
  | failures => .error (multiple failures)

/-- The failure at the end of a chain of imports, and the imports that led to it, last first. -/
def innermost : Failure → Failure × List (String × String)
  | imported file importer cause =>
    let (inner, trail) := cause.innermost
    (inner, trail ++ [(file, importer)])
  | failure => (failure, [])

end Failure

end Idl

import Idl.Failure

/-!
# Commands

Commands of the system that a run may start.  What they do is none of the program's: a command that
is started may change files, writes an output and ends.
-/

namespace Idl

inductive Ending
  | exited (status : Nat)
  | killed (signal : Nat)
deriving DecidableEq, Repr

structure Finished where
  files : FileTree
  ending : Ending
  output : List UInt8
deriving DecidableEq, Repr

/-- What becomes of the files when the command of a name is started with arguments and input, and
how it ends; or why it cannot be started. -/
abbrev Commands := FileTree → String → List String → List UInt8 → Except PluginFault Finished

end Idl

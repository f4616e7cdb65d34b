/-!
# Dialects

The two ways of writing a schema, and what can be chosen about reading one.
-/

namespace Idl

inductive Dialect
  | native
  | protobuf
deriving DecidableEq, Repr

structure ParseConfig where
  /-- Method ids are kept, and every method must have one. -/
  useMethodId : Bool
deriving DecidableEq, Repr

end Idl

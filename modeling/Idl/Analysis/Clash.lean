import Idl.Diagnostic
import Idl.Schema

/-!
# Clashes

What makes the declarations of a program inconsistent: two that share a name, a number or a key in
one scope, or a method that lacks its id.
-/

namespace Idl

inductive OptionOwner
  | package
  | enum (name : String)
  | message (name : String)
  | field (message name : String)
  | service (name : String)
  | method (service name : String)
  | project (name : String)
  | area (project name : String)
deriving DecidableEq, Repr

def OptionOwner.text : OptionOwner → String
  | package => "package"
  | enum name => "enum `" ++ name ++ "`"
  | message name => "message `" ++ name ++ "`"
  | field holder name => "field `" ++ holder ++ "." ++ name ++ "`"
  | service name => "service `" ++ name ++ "`"
  | method holder name => "method `" ++ holder ++ "." ++ name ++ "`"
  | project name => "project `" ++ name ++ "`"
  | area holder name => "project `" ++ holder ++ "` area `" ++ name ++ "`"

inductive Repeated
  | importFile (file : String)
  | importName (name : String)
  | definition (kind name : String)
  | enumValue (enum value : String)
  | enumNumber (enum value : String) (number : Int64)
  | field (message name : String)
  | tag (message name : String) (number : Int64)
  | method (service name : String)
  | methodId (service first second : String) (number : Int64)
  | option (owner : OptionOwner) (key : String)
deriving DecidableEq, Repr

namespace Repeated

def code : Repeated → Code
  | importFile _ => .duplicateImport
  | importName _ => .duplicateAlias
  | definition _ _ => .duplicateDefinition
  | enumValue _ _ | field _ _ | method _ _ => .duplicateMember
  | enumNumber _ _ _ | tag _ _ _ | methodId _ _ _ _ => .duplicateNumber
  | option _ _ => .duplicateOption

def message : Repeated → String
  | importFile file => "file `" ++ file ++ "` is imported more than once"
  | importName name => "import alias `" ++ name ++ "` is used more than once"
  | definition kind name => kind ++ " `" ++ name ++ "` is defined multiple times"
  | enumValue enum value =>
    "enum `" ++ enum ++ "` has more than one value named `" ++ value ++ "`"
  | enumNumber enum value number =>
    "value " ++ Text.showInt64 number ++ " of `" ++ enum ++ "." ++ value ++ "` is already used"
  | field holder name =>
    "message `" ++ holder ++ "` has more than one field named `" ++ name ++ "`"
  | tag holder name number =>
    "tag " ++ Text.showInt64 number ++ " of `" ++ holder ++ "." ++ name ++ "` is already used"
  | method holder name =>
    "service `" ++ holder ++ "` has more than one method named `" ++ name ++ "`"
  | methodId service first second number =>
    "methods `" ++ first ++ "` and `" ++ second ++ "` of service `" ++ service ++ "` share id "
      ++ Text.showInt64 number
  | option owner key => "option `" ++ key ++ "` of " ++ owner.text ++ " is set more than once"

end Repeated

inductive Clash
  /-- The declaration at `span` repeats something of the one at `first`. -/
  | repeated (what : Repeated) (span first : Span)
  | missingId (service : String) (method : Located String)
deriving DecidableEq, Repr

def Clash.diagnostic : Clash → Diagnostic
  | repeated what span first =>
    { severity := .error
      code := some what.code
      message := what.message
      labels := [⟨span, what.code.description, true⟩, ⟨first, "first defined here", false⟩]
      help := none }
  | missingId service method =>
    .error .missingMethodId ("method `" ++ service ++ "." ++ method.value ++ "` has no id")
      method.span Code.missingMethodId.description
      (some "add `= <id>` after the method signature")

end Idl

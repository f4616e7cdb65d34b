import Idl.Grammar.Parser
import Idl.Schema

/-!
# Parts of declarations

What the two dialects have in common: option values, field tags and maps, and how the statements
of a body make up a declaration.
-/

namespace Idl

/-- A letter from `a` to `z`, then such letters, digits and underscores. -/
def isLowerIdentifier : List Char → Bool
  | [] => false
  | c :: cs =>
    ('a' ≤ c && c ≤ 'z') && cs.all fun c => ('a' ≤ c && c ≤ 'z') || Text.isDigit c || c == '_'

def segments (name : String) : List (List Char) := name.toList.splitOnP (· == '.')

/-- At least two lower-case identifiers with dots between them. -/
def isOptionName (name : String) : Bool :=
  name.toList.contains '.' && (segments name).all isLowerIdentifier

/-- An element type as it is written: its range, and the hints on its encoding. -/
structure WrittenElem where
  type : ElemType
  span : Span
  hints : List String
deriving DecidableEq, Repr

inductive MessageStatement
  | field (field : Field)
  | option (option : OptionDecl)
  | message (message : Message)
  | enum (enum : EnumDef)

namespace MessageStatement

def field? : MessageStatement → Option Field
  | field f => some f
  | _ => none

def option? : MessageStatement → Option OptionDecl
  | option o => some o
  | _ => none

def message? : MessageStatement → Option Message
  | message m => some m
  | _ => none

def enum? : MessageStatement → Option EnumDef
  | enum e => some e
  | _ => none

end MessageStatement

def Message.ofStatements (name : Located String) (statements : List MessageStatement) :
    Message where
  name := name
  doc := .none
  fields := statements.filterMap (·.field?)
  messages := statements.filterMap (·.message?)
  enums := statements.filterMap (·.enum?)
  options := statements.filterMap (·.option?)

inductive EnumStatement
  | value (name : Located String) (number : Option Int64)
  | option (option : OptionDecl)

namespace EnumStatement

def value? : EnumStatement → Option (Located String × Option Int64)
  | value name number => some (name, number)
  | option _ => none

def option? : EnumStatement → Option OptionDecl
  | value _ _ => none
  | option o => some o

end EnumStatement

def EnumDef.ofStatements (name : Located String) (statements : List EnumStatement) : EnumDef where
  name := name
  doc := .none
  values := EnumValue.numbered none (statements.filterMap (·.value?))
  options := statements.filterMap (·.option?)

inductive ServiceStatement
  | mode (mode : CallMode)
  | method (method : Method)
  | option (option : OptionDecl)

namespace ServiceStatement

def option? : ServiceStatement → Option OptionDecl
  | option o => some o
  | _ => none

/-- The methods, each in the mode that was last set before it. -/
def methods (current : CallMode) : List ServiceStatement → List Method
  | [] => []
  | mode m :: statements => methods m statements
  | method m :: statements => { m with mode := current } :: methods current statements
  | option _ :: statements => methods current statements

end ServiceStatement

def Service.ofStatements (name : Located String) (statements : List ServiceStatement) :
    Service where
  name := name
  doc := .none
  methods := ServiceStatement.methods .call statements
  options := statements.filterMap (·.option?)

inductive ProjectStatement
  | area (name : Located String)
  | option (option : OptionDecl)

/-- The areas after the given statements, where `current` is the area that is open. -/
def ProjectStatement.areas (current : Located String) (opened : List ProjectArea) :
    List ProjectStatement → List ProjectArea
  | [] => opened
  | area name :: statements => areas name (Project.openArea name opened) statements
  | option o :: statements => areas current (Project.addOption current o opened) statements

def Project.ofStatements (name : Located String) (statements : List ProjectStatement) :
    Project where
  name := name
  doc := .none
  areas := ProjectStatement.areas ⟨"", default⟩ [] statements

inductive Declaration
  | import_ (item : Import)
  | option (option : OptionDecl)
  | enum (enum : EnumDef)
  | message (message : Message)
  | service (service : Service)
  | project (project : Project)

namespace Declaration

def import? : Declaration → Option Import
  | import_ i => some i
  | _ => none

def option? : Declaration → Option OptionDecl
  | option o => some o
  | _ => none

def enum? : Declaration → Option EnumDef
  | enum e => some e
  | _ => none

def message? : Declaration → Option Message
  | message m => some m
  | _ => none

def service? : Declaration → Option Service
  | service s => some s
  | _ => none

def project? : Declaration → Option Project
  | project p => some p
  | _ => none

end Declaration

def Schema.ofDeclarations (package : Located String) (declarations : List Declaration) :
    Schema where
  package := ⟨package, .none⟩
  imports := declarations.filterMap (·.import?)
  options := declarations.filterMap (·.option?)
  enums := declarations.filterMap (·.enum?)
  messages := declarations.filterMap (·.message?)
  services := declarations.filterMap (·.service?)
  projects := declarations.filterMap (·.project?)

namespace Parser

variable {σ : Type} [TokenStream σ]

/-- A text, an integer, or one of the words `true` and `false`. -/
def optionValue : Parser σ OptionValue := do
  let found ← token "option value" fun
    | .text value => some (OptionValue.text value)
    | .integer value => some (.int value)
    | .identifier "true" => some (.int 1)
    | .identifier "false" => some (.int 0)
    | _ => none
  return found.value

/-- A tag from 1 to 255. -/
def fieldTag : Parser σ (Located Int64) := do
  let tag ← integer
  if 1 ≤ tag.value ∧ tag.value ≤ 255 then return tag
  else refuse (.tagOutOfRange tag)

def mapType (elem : Parser σ WrittenElem) : Parser σ (FieldType × List String) := do
  discard (word "map")
  commit do
    discard (punct .leftAngle)
    let key ← elem
    discard (punct .comma)
    if (← atWord "map") || (← atWord "repeated") then
      refuse (.containerMapValue (← nextSpan))
    let value ← elem
    discard (punct .rightAngle)
    match key.type with
    | .base base =>
      if base.isMapKey then
        return (.map base value.type, (key.hints ++ value.hints).eraseDups)
      else refuse (.binaryMapKey key.span)
    | .custom type => refuse (.customMapKey type.name.value key.span)

def declarations (declaration : Parser σ Declaration) : Parser σ (List Declaration) :=
  collect do
    terminators
    if (← peek?).isNone then return none else return some (← declaration)

end Parser

end Idl

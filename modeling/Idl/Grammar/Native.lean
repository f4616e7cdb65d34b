import Idl.Grammar.Parts

/-!
# The native dialect

The grammar of the native notation.  A file opens with its package; names are lower case; every
terminator is optional.  What a statement is shows in at most three tokens.
-/

namespace Idl.Native

open Idl.Parser

variable {σ : Type} [TokenStream σ]

def declaredName (what : String) : Parser σ (Located String) := do
  let name ← identifier
  if isLowerIdentifier name.value.toList then return name
  else refuse (.invalidName what name)

def optionKey : Parser σ (Located String) := do
  let key ← identifier
  if isOptionName key.value then return key
  else refuse (.invalidOptionName key)

/-- `key [= value] [;]` -/
def option : Parser σ OptionDecl := do
  let key ← optionKey
  let value ← if (← punct? .equals).isSome then some <$> commit optionValue else pure none
  terminator
  return .plain key value

def optionBlock : Parser σ (List OptionDecl) := do
  discard (punct .leftBrace)
  let options ← collect do
    if ← atPunct .rightBrace then return none else return some (← option)
  discard (punct .rightBrace)
  return options

def optionBlock? : Parser σ (List OptionDecl) := do
  if ← atPunct .leftBrace then optionBlock else return []

/-- `package name [;]` -/
def package : Parser σ (Located String) := do
  unless ← atWord "package" do
    refuse (.missingPackage .native (← nextSpan))
  discard (word "package")
  let name ← commit (declaredName "package name")
  terminator
  return name

/-- `import [name] "file" [;]` -/
def importFile : Parser σ Import := do
  discard (word "import")
  commit do
    let localName ← match ← peek? with
      | some (.identifier _) => some <$> declaredName "import alias"
      | _ => pure none
    let file ← textLiteral
    terminator
    return { file, localName, doc := .none, target := none }

/-- `name [= number] [;]` -/
def enumValue : Parser σ EnumStatement := do
  let name ← declaredName "enum value name"
  if (← punct? .equals).isSome then
    if let some (.text _) ← peek? then
      refuse (.textEnumValue name.value (← nextSpan))
    let number ← integer
    terminator
    return .value name (some number.value)
  else
    terminator
    return .value name none

/-- An option when the next name has a dot, otherwise a value. -/
def enumStatement : Parser σ EnumStatement := do
  match ← peek? with
  | some (.identifier name) =>
    if name.toList.contains '.' then return .option (← option) else enumValue
  | _ => enumValue

/-- `enum name { value or option ... } [;]` -/
def enum : Parser σ EnumDef := do
  discard (word "enum")
  commit do
    let name ← declaredName "enum name"
    let statements ← block enumStatement
    terminator
    return .ofStatements name statements

/-- A base type, `[]byte`, or the name of a type, perhaps after that of an import. -/
def elemType : Parser σ WrittenElem := do
  if ← atPunct .leftBracket then
    let first ← punct .leftBracket
    discard (punct .rightBracket)
    let last ← word "byte"
    return ⟨.base .binary, first.union last, []⟩
  else
    let name ← identifier
    match BaseType.ofName? name.value with
    | some base => return ⟨.base base, name.span, []⟩
    | none =>
      let parts := segments name.value
      if parts.length ≤ 2 && parts.all isLowerIdentifier then
        return ⟨.custom (.unbound name), name.span, []⟩
      else refuse (.invalidType name)

def fieldType : Parser σ FieldType := do
  if ← atWord "map" then
    return (← mapType elemType).1
  else if ← atWord "repeated" then
    discard (word "repeated")
    if (← atWord "repeated") || (← atWord "map") then
      refuse (.nestedContainer (← nextSpan))
    return .list (← commit elemType).type
  else
    return .single (← elemType).type

/-- `type name = tag [{ option ... }] [;]` -/
def field : Parser σ Field := do
  let type ← fieldType
  commit do
    let name ← identifier
    discard (punct .equals)
    let tag ← fieldTag
    let options ← optionBlock?
    terminator
    return { name, tag, type, options, doc := .none }

inductive MessageItem
  | message
  | enum
  | field
  | option
deriving DecidableEq, Repr

/-- Tells the statements of a message body apart by their first three tokens. -/
def MessageItem.ofTokens : List Token → MessageItem
  | .identifier "message" :: .identifier _ :: .punct .leftBrace :: _ => .message
  | .identifier "enum" :: .identifier _ :: .punct .leftBrace :: _ => .enum
  | .identifier "repeated" :: _ => .field
  | .identifier "map" :: .punct .leftAngle :: _ => .field
  | .punct .leftBracket :: _ => .field
  | .identifier _ :: .identifier _ :: .punct .equals :: _ => .field
  | _ => .option

def messageStatement (nested : Parser σ Message) : Parser σ MessageStatement := do
  match MessageItem.ofTokens (← peekMany 3) with
  | .message => return .message (← nested)
  | .enum => return .enum (← enum)
  | .field => return .field (← field)
  | .option => return .option (← option)

/-- `message name { field, message, enum or option ... } [;]` -/
def messageWith (nested : Parser σ Message) : Parser σ Message := do
  discard (word "message")
  commit do
    let name ← declaredName "message name"
    let statements ← block (messageStatement nested)
    terminator
    return .ofStatements name statements

def message : Parser σ Message := recursive messageWith

/-- The type of a request or a reply makes a message of that name with one field; `void` makes
none. -/
def methodMessage (fieldName role : String) : Parser σ (Option MethodMessage) := do
  let elem ← elemType
  match elem.type with
  | .base base => refuse (.baseMethodMessage role base elem.span)
  | .custom type =>
    if type.name.value = "void" then return none
    else
      let field : Field :=
        { name := ⟨fieldName, elem.span⟩, tag := ⟨1, elem.span⟩, type := .single (.custom type)
          options := [], doc := .none }
      return some (.inline (.ofStatements ⟨type.name.value, elem.span⟩ [.field field]))

/-- `name(request) reply [= id] [{ option ... }] [;]` -/
def method (config : ParseConfig) : Parser σ Method := do
  let name ← declaredName "method name"
  commit do
    discard (punct .leftParen)
    let request ← if ← atPunct .rightParen then pure none else methodMessage "rq" "request"
    discard (punct .rightParen)
    let reply ← methodMessage "rs" "reply"
    let id ← if (← punct? .equals).isSome then some <$> integer else pure none
    let options ← optionBlock?
    terminator
    return {
      name, doc := .none, request, reply, mode := .call, options
      id := if config.useMethodId then id else none }

def flagMode (flag : Located String) : Parser σ CallMode :=
  if flag.value = "call" then return .call
  else if flag.value = "notify" then return .notify
  else refuse (.unknownFlag flag)

/-- A flag when a colon follows the next name, a method when a parenthesis does, otherwise an
option. -/
def serviceStatement (config : ParseConfig) : Parser σ ServiceStatement := do
  match ← peekMany 2 with
  | [.identifier _, .punct .colon] =>
    let mode ← flagMode (← identifier)
    discard (punct .colon)
    return .mode mode
  | [.identifier _, .punct .leftParen] => return .method (← method config)
  | _ => return .option (← option)

/-- `service name { flag, method or option ... } [;]` -/
def service (config : ParseConfig) : Parser σ Service := do
  discard (word "service")
  commit do
    let name ← declaredName "service name"
    let statements ← block (serviceStatement config)
    terminator
    return .ofStatements name statements

/-- An area when a colon follows the next name, otherwise an option. -/
def projectStatement : Parser σ ProjectStatement := do
  match ← peekMany 2 with
  | [.identifier _, .punct .colon] =>
    let name ← declaredName "project area"
    discard (punct .colon)
    return .area name
  | _ => return .option (← option)

/-- `project name { area or option ... } [;]` -/
def project : Parser σ Project := do
  discard (word "project")
  commit do
    let name ← declaredName "project name"
    let statements ← block projectStatement
    terminator
    return .ofStatements name statements

/-- A statement at the top level; what no keyword opens is an option. -/
def declaration (config : ParseConfig) : Parser σ Declaration := do
  match ← peek? with
  | some (.identifier "import") => return .import_ (← importFile)
  | some (.identifier "enum") => return .enum (← enum)
  | some (.identifier "message") => return .message (← message)
  | some (.identifier "service") => return .service (← service config)
  | some (.identifier "project") => return .project (← project)
  | _ => return .option (← option)

def schema (config : ParseConfig) : Parser σ Schema := do
  let name ← package
  return .ofDeclarations name (← declarations (declaration config))

end Idl.Native

import Idl.Grammar.Parts

/-!
# The protobuf dialect

The grammar of the part of the protobuf notation that has a meaning in a schema.  Scalars are
folded onto base types; what they say about the encoding becomes options of the field.
-/

namespace Idl.Protobuf

open Idl.Parser

variable {σ : Type} [TokenStream σ]

/-- The option of a field whose integers are written with their sign folded in. -/
def signedHint : String := "proto.signed"

/-- The option of a field whose integers are written at full width. -/
def fixedHint : String := "proto.fixed"

def scalars : List (String × BaseType × List String) :=
  [("int32", .int32, []), ("int64", .int64, []), ("uint32", .uint32, []), ("uint64", .uint64, []),
    ("string", .string, []), ("bool", .bool, []), ("bytes", .binary, []), ("float", .float32, []),
    ("double", .float64, []), ("sint32", .int32, [signedHint]), ("sint64", .int64, [signedHint]),
    ("fixed32", .uint32, [fixedHint]), ("fixed64", .uint64, [fixedHint]),
    ("sfixed32", .int32, [signedHint, fixedHint]), ("sfixed64", .int64, [signedHint, fixedHint])]

/-- `syntax = "version" [;]`, kept as an option that holds the number of the version. -/
def syntaxVersion? : Parser σ (Option OptionDecl) := do
  unless ← atWord "syntax" do return none
  let span ← word "syntax"
  commit do
    discard (punct .equals)
    let version ← textLiteral
    let number : Int64 ←
      if version.value = "proto3" then pure 3
      else if version.value = "proto2" then pure 2
      else refuse (.unsupportedSyntax version)
    terminator
    return some (.plain ⟨"proto.syntax", span⟩ (some (.int number)))

/-- `package name [;]` -/
def package : Parser σ (Located String) := do
  unless ← atWord "package" do
    refuse (.missingPackage .protobuf (← nextSpan))
  discard (word "package")
  let name ← commit identifier
  terminator
  return name

/-- `import [name] "file" [;]` -/
def importFile : Parser σ Import := do
  discard (word "import")
  commit do
    let localName ← match ← peek? with
      | some (.identifier _) => some <$> identifier
      | _ => pure none
    let file ← textLiteral
    terminator
    return { file, localName, doc := .none, target := none }

def optionName : Parser σ (Located String) := do
  match ← punct? .leftParen with
  | some first =>
    let name ← identifier
    let last ← punct .rightParen
    return ⟨name.value, first.union last⟩
  | none => identifier

/-- `option name = value [;]` -/
def option : Parser σ OptionDecl := do
  discard (word "option")
  commit do
    let key ← optionName
    discard (punct .equals)
    let value ← optionValue
    terminator
    let key := if key.value = "go_package" then ⟨"proto.gopkg", key.span⟩ else key
    return .plain key (some value)

/-- `name = value` -/
def fieldOption : Parser σ OptionDecl := do
  let key ← optionName
  discard (punct .equals)
  return .plain key (some (← optionValue))

def fieldOptions : Parser σ (List OptionDecl) := do
  discard (punct .leftBracket)
  let first ← fieldOption
  let more ← collect do
    if (← punct? .comma).isSome then return some (← fieldOption) else return none
  discard (punct .rightBracket)
  return first :: more

/-- `name = number [;]`, or an option. -/
def enumStatement : Parser σ EnumStatement := do
  if ← atWord "option" then return .option (← option)
  else
    let name ← identifier
    discard (punct .equals)
    let number ← integer
    if ← atPunct .leftBracket then
      refuse (.enumValueOptions name.value (← nextSpan))
    terminator
    return .value name (some number.value)

/-- `enum name { value or option ... }` -/
def enum : Parser σ EnumDef := do
  discard (word "enum")
  commit do
    let name ← identifier
    return .ofStatements name (← block enumStatement)

def elemType : Parser σ WrittenElem := do
  let name ← identifier
  match scalars.lookup name.value with
  | some (base, hints) => return ⟨.base base, name.span, hints⟩
  | none => return ⟨.custom (.unbound name), name.span, []⟩

/-- Reads the word before the type of a field; tells whether the field is a list. -/
def cardinality : Parser σ Bool := do
  if ← atWord "repeated" then
    discard (word "repeated")
    return true
  else if ← atWord "optional" then
    discard (word "optional")
    return false
  else if ← atWord "required" then
    discard (word "required")
    return false
  else return false

def fieldType (repeated : Bool) : Parser σ (FieldType × List String) := do
  if !repeated && (← atWord "map") then mapType elemType
  else
    let elem ← elemType
    return (if repeated then .list elem.type else .single elem.type, elem.hints)

/-- `[repeated | optional | required] type name = tag [options] [;]` -/
def field : Parser σ Field := do
  let repeated ← cardinality
  let (type, hints) ← fieldType repeated
  commit do
    let name ← identifier
    discard (punct .equals)
    let tag ← fieldTag
    let hinted := hints.map fun hint => OptionDecl.plain ⟨hint, tag.span⟩ (some (.int 1))
    let written ← if ← atPunct .leftBracket then fieldOptions else pure []
    terminator
    return { name, tag, type, options := hinted ++ written, doc := .none }

inductive MessageItem
  | message
  | enum
  | option
  | field
deriving DecidableEq, Repr

def MessageItem.ofTokens : List Token → MessageItem
  | .identifier "message" :: .identifier _ :: _ => .message
  | .identifier "enum" :: .identifier _ :: _ => .enum
  | .identifier "option" :: .identifier _ :: _ => .option
  | .identifier "option" :: .punct .leftParen :: _ => .option
  | _ => .field

def messageStatement (nested : Parser σ Message) : Parser σ MessageStatement := do
  match MessageItem.ofTokens (← peekMany 2) with
  | .message => return .message (← nested)
  | .enum => return .enum (← enum)
  | .option => return .option (← option)
  | .field => return .field (← field)

/-- `message name { field, message, enum or option ... }` -/
def messageWith (nested : Parser σ Message) : Parser σ Message := do
  discard (word "message")
  commit do
    let name ← identifier
    return .ofStatements name (← block (messageStatement nested))

def message : Parser σ Message := recursive messageWith

def rpcMessage : Parser σ MethodMessage := do
  let name ← identifier
  if name.value = "stream" then refuse (.streamingMessage name.span)
  else if (BaseType.ofName? name.value).isSome then refuse (.baseRpcMessage name)
  else return .stub name none

/-- `rpc name(request) returns (reply) [= id] [{ option ... }] [;]` -/
def rpc (config : ParseConfig) : Parser σ Method := do
  discard (word "rpc")
  commit do
    let name ← identifier
    discard (punct .leftParen)
    let request ← rpcMessage
    discard (punct .rightParen)
    discard (word "returns")
    discard (punct .leftParen)
    let reply ← rpcMessage
    discard (punct .rightParen)
    let id ← if (← punct? .equals).isSome then some <$> integer else pure none
    let options ← if ← atPunct .leftBrace then block option else pure []
    terminator
    return {
      name, doc := .none, request := some request, reply := some reply, mode := .call, options
      id := if config.useMethodId then id else none }

def serviceStatement (config : ParseConfig) : Parser σ ServiceStatement := do
  match ← peek? with
  | some (.identifier "option") => return .option (← option)
  | some (.identifier "rpc") => return .method (← rpc config)
  | _ => expected "`rpc` or `option`"

/-- `service name { option or method ... }` -/
def service (config : ParseConfig) : Parser σ Service := do
  discard (word "service")
  commit do
    let name ← identifier
    return .ofStatements name (← block (serviceStatement config))

def declaration (config : ParseConfig) : Parser σ Declaration := do
  match ← peek? with
  | some (.identifier "import") => return .import_ (← importFile)
  | some (.identifier "option") => return .option (← option)
  | some (.identifier "enum") => return .enum (← enum)
  | some (.identifier "message") => return .message (← message)
  | some (.identifier "service") => return .service (← service config)
  | _ => expected "top-level declaration"

def schema (config : ParseConfig) : Parser σ Schema := do
  let version ← syntaxVersion?
  let name ← package
  let schema := Schema.ofDeclarations name (← declarations (declaration config))
  return { schema with options := version.toList ++ schema.options }

end Idl.Protobuf

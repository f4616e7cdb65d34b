import Idl.Source.Span

/-!
# Diagnostics

A diagnostic describes one problem of a source text: how serious it is, a code that names its
kind, a message, labelled ranges and an optional hint.
-/

namespace Idl

inductive Severity
  | error
  | warning
deriving DecidableEq, Repr

def Severity.text : Severity → String
  | error => "error"
  | warning => "warning"

inductive Code
  | unterminatedString
  | unexpectedCharacter
  | invalidEscape
  | invalidInteger
  | unexpectedToken
  | incompleteInput
  | missingPackage
  | invalidIdentifier
  | invalidOptionName
  | invalidFieldType
  | tagOutOfRange
  | invalidMapKey
  | invalidMapValue
  | invalidEnumValue
  | nestedContainer
  | invalidMethodMessage
  | unsupportedSyntax
  | duplicateImport
  | duplicateAlias
  | packageMismatch
  | duplicateDefinition
  | duplicateMember
  | duplicateNumber
  | duplicateOption
  | missingMethodId
  | unresolvedType
  | unresolvedMethodMessage
deriving DecidableEq, Repr

namespace Code

/-- The codes in order: `E0` for characters, `E1` for grammar, `E2` for clashes, `E3` for
references. -/
def all : List Code :=
  [unterminatedString, unexpectedCharacter, invalidEscape, invalidInteger, unexpectedToken,
    incompleteInput, missingPackage, invalidIdentifier, invalidOptionName, invalidFieldType,
    tagOutOfRange, invalidMapKey, invalidMapValue, invalidEnumValue, nestedContainer,
    invalidMethodMessage, unsupportedSyntax, duplicateImport, duplicateAlias, packageMismatch,
    duplicateDefinition, duplicateMember, duplicateNumber, duplicateOption, missingMethodId,
    unresolvedType, unresolvedMethodMessage]

def text : Code → String
  | unterminatedString => "E001"
  | unexpectedCharacter => "E002"
  | invalidEscape => "E003"
  | invalidInteger => "E004"
  | unexpectedToken => "E100"
  | incompleteInput => "E101"
  | missingPackage => "E102"
  | invalidIdentifier => "E103"
  | invalidOptionName => "E104"
  | invalidFieldType => "E105"
  | tagOutOfRange => "E106"
  | invalidMapKey => "E107"
  | invalidMapValue => "E108"
  | invalidEnumValue => "E109"
  | nestedContainer => "E110"
  | invalidMethodMessage => "E111"
  | unsupportedSyntax => "E112"
  | duplicateImport => "E200"
  | duplicateAlias => "E201"
  | packageMismatch => "E202"
  | duplicateDefinition => "E203"
  | duplicateMember => "E204"
  | duplicateNumber => "E205"
  | duplicateOption => "E206"
  | missingMethodId => "E207"
  | unresolvedType => "E300"
  | unresolvedMethodMessage => "E301"

def ofText? (s : String) : Option Code := all.find? (·.text == s)

def description : Code → String
  | unterminatedString => "unterminated string literal"
  | unexpectedCharacter => "unexpected character"
  | invalidEscape => "invalid escape sequence"
  | invalidInteger => "invalid integer literal"
  | unexpectedToken => "unexpected token"
  | incompleteInput => "incomplete input"
  | missingPackage => "missing package declaration"
  | invalidIdentifier => "invalid identifier"
  | invalidOptionName => "invalid option name"
  | invalidFieldType => "invalid field type"
  | tagOutOfRange => "field tag out of range"
  | invalidMapKey => "invalid map key"
  | invalidMapValue => "invalid map value"
  | invalidEnumValue => "invalid enum value"
  | nestedContainer => "nested container"
  | invalidMethodMessage => "invalid method message"
  | unsupportedSyntax => "unsupported syntax version"
  | duplicateImport => "duplicate import file"
  | duplicateAlias => "duplicate import alias"
  | packageMismatch => "import package mismatch"
  | duplicateDefinition => "duplicate definition"
  | duplicateMember => "duplicate member name"
  | duplicateNumber => "duplicate number"
  | duplicateOption => "duplicate option"
  | missingMethodId => "missing method id"
  | unresolvedType => "unresolved type"
  | unresolvedMethodMessage => "unresolved method message"

end Code

/-- A remark on a range of the source.  A primary label marks the problem itself. -/
structure Label where
  span : Span
  message : String
  primary : Bool
deriving DecidableEq, Repr

structure Diagnostic where
  severity : Severity
  code : Option Code
  message : String
  labels : List Label
  help : Option String
deriving DecidableEq, Repr

namespace Diagnostic

def error (code : Code) (message : String) (span : Span) (label : String)
    (help : Option String) : Diagnostic where
  severity := .error
  code := some code
  message := message
  labels := [⟨span, label, true⟩]
  help := help

/-- The one-line form: severity, code in brackets, message. -/
def text (d : Diagnostic) : String :=
  let code := match d.code with
    | some c => "[" ++ c.text ++ "]"
    | none => ""
  d.severity.text ++ code ++ ": " ++ d.message

def primarySpan? (d : Diagnostic) : Option Span := (d.labels.find? (·.primary)).map (·.span)

/-- The first diagnostic in its one-line form, and how many more there are. -/
def summary : List Diagnostic → String
  | [] => ""
  | [d] => d.text
  | d :: ds => d.text ++ " (+" ++ toString ds.length ++ " more)"

end Diagnostic

end Idl

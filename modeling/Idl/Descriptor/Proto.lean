import Idl.Descriptor
import Idl.Path
import Idl.Text.Quoted

/-!
# Descriptors in protobuf notation

What the protobuf notation can say about messages and enums: the package, imports, enums and
messages with what is nested in them.  Services and projects are left out.  The encoding hints of a
field choose its scalar.
-/

namespace Idl

/-- The scalar of a base type; narrow integers widen to 32 bits. -/
def BaseType.scalar (signed fixed : Bool) : BaseType → String
  | int8 | int16 | int32 =>
    if fixed then "sfixed32" else if signed then "sint32" else "int32"
  | int64 => if fixed then "sfixed64" else if signed then "sint64" else "int64"
  | uint8 | uint16 | uint32 => if fixed then "fixed32" else "uint32"
  | uint64 => if fixed then "fixed64" else "uint64"
  | string => "string"
  | binary => "bytes"
  | bool => "bool"
  | float32 => "float"
  | float64 => "double"

namespace Proto

structure Line where
  level : Nat
  text : String
deriving DecidableEq, Repr

def Line.render (line : Line) : String :=
  if line.text.isEmpty then "\n"
  else String.ofList (List.replicate (2 * line.level) ' ') ++ line.text ++ "\n"

def docLines (level : Nat) (doc : Option DocDesc) : List Line :=
  match doc with
  | none => []
  | some doc => doc.lines.map (⟨level, ·⟩)

def bodyLines (level : Nat) (header : String) (body : List Line) : List Line :=
  ⟨level, header ++ " \x7b"⟩ :: body ++ [⟨level, "\x7d"⟩]

def enumLines (level : Nat) (enum : EnumDesc) : List Line :=
  docLines level enum.doc ++ bodyLines level ("enum " ++ enum.name)
    (enum.values.flatMap fun value =>
      docLines (level + 1) value.doc ++
        [⟨level + 1, value.name ++ " = " ++ Text.showInt64 value.number ++ ";"⟩])

def elemName (options : OptionsDesc) (base : Option BaseType) (name : String) : String :=
  match base with
  | none => name
  | some base =>
    base.scalar (options.lookup "proto.signed").isSome (options.lookup "proto.fixed").isSome

def typeName (field : FieldDesc) : String :=
  let key := elemName field.options field.type.keyBase field.type.key
  match field.type.kind with
  | .base | .custom => key
  | .list => "repeated " ++ key
  | .map =>
    "map<" ++ key ++ ", " ++ elemName field.options field.type.valueBase field.type.value ++ ">"

def fieldLines (level : Nat) (field : FieldDesc) : List Line :=
  docLines level field.doc ++
    [⟨level, typeName field ++ " " ++ field.name ++ " = " ++ Text.showInt64 field.tag ++ ";"⟩]

mutual

/-- The lines of a message: nested enums, nested messages, fields. -/
def messageLines (level : Nat) : MessageDesc → List Line
  | ⟨name, doc, _, fields, messages, enums⟩ =>
    docLines level doc ++ bodyLines level ("message " ++ name)
      (enums.flatMap (enumLines (level + 1)) ++ messagesLines (level + 1) messages ++
        fields.flatMap (fieldLines (level + 1)))

def messagesLines (level : Nat) : List MessageDesc → List Line
  | [] => []
  | message :: messages => messageLines level message ++ messagesLines level messages

end

def fileName (file : String) : String := Path.withExtension "proto" file

def importLines (item : ImportDesc) : List Line :=
  docLines 0 item.doc ++ [⟨0, "import \"" ++ fileName item.file ++ "\";"⟩]

def optionLines (options : OptionsDesc) : List Line :=
  match options.lookup "proto.gopkg" with
  | some (some (.text package)) => [⟨0, "option go_package = " ++ Text.quoted package ++ ";"⟩]
  | _ => []

def fileLines (file : FileDesc) : List Line :=
  [⟨0, "// Code generated by wctl. DO NOT EDIT."⟩, ⟨0, "// source: " ++ file.file⟩, ⟨0, ""⟩,
      ⟨0, "syntax = \"proto3\";"⟩, ⟨0, ""⟩]
    ++ docLines 0 file.package.doc
    ++ [⟨0, "package " ++ file.package.package ++ ";"⟩]
    ++ optionLines file.options
    ++ (if file.imports.isEmpty then [] else [⟨0, ""⟩])
    ++ file.imports.flatMap importLines
    ++ file.enums.flatMap (fun enum => ⟨0, ""⟩ :: enumLines 0 enum)
    ++ file.messages.flatMap (fun message => ⟨0, ""⟩ :: messageLines 0 message)

def render (file : FileDesc) : String := String.join ((fileLines file).map (·.render))

end Proto

end Idl

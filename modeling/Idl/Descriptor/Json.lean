import Idl.Descriptor
import Idl.Json

/-!
# Descriptors as JSON

Every field of a descriptor is written, in a fixed order.
-/

namespace Idl

def DocDesc.toJson (doc : DocDesc) : Json :=
  .object [("doc", .list (doc.lines.map .text)), ("tail_doc", .text doc.tail)]

def DocDesc.toJson? (doc : Option DocDesc) : Json := .ofOption toJson doc

namespace OptionsDesc

def valueToJson : Option OptionValue → Json
  | none => .text "Empty"
  | some (.int value) => .object [("Int", .int value)]
  | some (.text value) => .object [("Str", .text value)]

def toJson (options : OptionsDesc) : Json :=
  .object (options.map fun (key, value) => (key, valueToJson value))

end OptionsDesc

def BaseType.tag : BaseType → String
  | int8 => "Int8"
  | int16 => "Int16"
  | int32 => "Int32"
  | int64 => "Int64"
  | uint8 => "Uint8"
  | uint16 => "Uint16"
  | uint32 => "Uint32"
  | uint64 => "Uint64"
  | string => "String"
  | binary => "Binary"
  | bool => "Bool"
  | float32 => "Float32"
  | float64 => "Float64"

def FieldKind.tag : FieldKind → String
  | base => "Base"
  | custom => "Custom"
  | list => "List"
  | map => "Map"

def CallMode.tag : CallMode → String
  | call => "Call"
  | notify => "Notify"

def PackageDesc.toJson (package : PackageDesc) : Json :=
  .object [("package", .text package.package), ("doc", DocDesc.toJson? package.doc)]

def ImportDesc.toJson (item : ImportDesc) : Json :=
  .object [("alias", .text item.localName), ("file", .text item.file),
    ("doc", DocDesc.toJson? item.doc)]

def EnumValueDesc.toJson (value : EnumValueDesc) : Json :=
  .object [("name", .text value.name), ("value", .int value.number),
    ("doc", DocDesc.toJson? value.doc)]

def EnumDesc.toJson (enum : EnumDesc) : Json :=
  .object [("name", .text enum.name), ("doc", DocDesc.toJson? enum.doc),
    ("options", OptionsDesc.toJson enum.options),
    ("values", .list (enum.values.map (·.toJson)))]

mutual

def MessageDesc.toJson : MessageDesc → Json
  | ⟨name, doc, options, fields, messages, enums⟩ =>
    .object [("name", .text name), ("doc", DocDesc.toJson? doc),
      ("options", OptionsDesc.toJson options), ("fields", .list (fieldsToJson fields)),
      ("sub_msgs", .list (messagesToJson messages)),
      ("sub_enums", .list (enums.map (·.toJson)))]

def FieldDesc.toJson : FieldDesc → Json
  | ⟨name, tag, type, options, doc⟩ =>
    .object [("name", .text name), ("no", .int tag), ("ty", type.toJson),
      ("options", OptionsDesc.toJson options), ("doc", DocDesc.toJson? doc)]

def TypeDesc.toJson : TypeDesc → Json
  | ⟨kind, key, value, keyBase, valueBase, isCustom, message⟩ =>
    .object [("kind", .text kind.tag), ("key", .text key), ("value", .text value),
      ("key_base", .ofOption (.text ·.tag) keyBase),
      ("value_base", .ofOption (.text ·.tag) valueBase), ("elem_custom", .bool isCustom),
      ("msg", messageToJson message)]

def fieldsToJson : List FieldDesc → List Json
  | [] => []
  | field :: fields => field.toJson :: fieldsToJson fields

def messagesToJson : List MessageDesc → List Json
  | [] => []
  | message :: messages => message.toJson :: messagesToJson messages

def messageToJson : Option MessageDesc → Json
  | none => .null
  | some message => message.toJson

end

def MethodDesc.toJson (method : MethodDesc) : Json :=
  .object [("name", .text method.name), ("doc", DocDesc.toJson? method.doc),
    ("options", OptionsDesc.toJson method.options), ("method_id", .ofOption .int method.id),
    ("mode", .text method.mode.tag), ("request", .ofOption (·.toJson) method.request),
    ("reply", .ofOption (·.toJson) method.reply)]

def ServiceDesc.toJson (service : ServiceDesc) : Json :=
  .object [("name", .text service.name), ("doc", DocDesc.toJson? service.doc),
    ("options", OptionsDesc.toJson service.options),
    ("methods", .list (service.methods.map (·.toJson)))]

def ProjectDesc.toJson (project : ProjectDesc) : Json :=
  .object [("name", .text project.name), ("doc", DocDesc.toJson? project.doc),
    ("conf", .object (project.areas.map fun (name, options) => (name, OptionsDesc.toJson options)))]

def FileDesc.toJson (file : FileDesc) : Json :=
  .object [("file", .text file.file), ("package", file.package.toJson),
    ("options", OptionsDesc.toJson file.options),
    ("imports", .list (file.imports.map (·.toJson))),
    ("enums", .list (file.enums.map (·.toJson))),
    ("messages", .list (file.messages.map (·.toJson))),
    ("services", .list (file.services.map (·.toJson))),
    ("projects", .list (file.projects.map (·.toJson)))]

end Idl

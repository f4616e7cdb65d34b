import Idl.Descriptor
import Idl.Wire.Basic

/-!
# Descriptors on the wire

The bytes of a descriptor are those of its fields, in the order of their declaration.
-/

namespace Idl

namespace DocDesc

def write (doc : DocDesc) : Bytes :=
  Wire.writeList Wire.writeText doc.lines ++ Wire.writeText doc.tail

def read : Reader DocDesc := return ⟨← .list .text, ← .text⟩

end DocDesc

namespace OptionsDesc

def writeValue : Option OptionValue → Bytes
  | none => Wire.writeIndex 0
  | some (.int value) => Wire.writeIndex 1 ++ Wire.writeInt value
  | some (.text value) => Wire.writeIndex 2 ++ Wire.writeText value

def readValue : Reader (Option OptionValue) :=
  .choice
    [return none, return some (.int (← .int)), return some (.text (← .text))]

def write (options : OptionsDesc) : Bytes := Wire.writeTable writeValue options

def read : Reader OptionsDesc := .table readValue

end OptionsDesc

namespace BaseType

def write (base : BaseType) : Bytes := Wire.writeIndex (all.idxOf base)

def read : Reader BaseType := .choice (all.map pure)

end BaseType

namespace FieldKind

def all : List FieldKind := [base, custom, list, map]

def write (kind : FieldKind) : Bytes := Wire.writeIndex (all.idxOf kind)

def read : Reader FieldKind := .choice (all.map pure)

end FieldKind

namespace CallMode

def all : List CallMode := [call, notify]

def write (mode : CallMode) : Bytes := Wire.writeIndex (all.idxOf mode)

def read : Reader CallMode := .choice (all.map pure)

end CallMode

namespace PackageDesc

def write (package : PackageDesc) : Bytes :=
  Wire.writeText package.package ++ Wire.writeOption DocDesc.write package.doc

def read : Reader PackageDesc := return ⟨← .text, ← .option DocDesc.read⟩

end PackageDesc

namespace ImportDesc

def write (item : ImportDesc) : Bytes :=
  Wire.writeText item.localName ++ Wire.writeText item.file ++
    Wire.writeOption DocDesc.write item.doc

def read : Reader ImportDesc := return ⟨← .text, ← .text, ← .option DocDesc.read⟩

end ImportDesc

namespace EnumValueDesc

def write (value : EnumValueDesc) : Bytes :=
  Wire.writeText value.name ++ Wire.writeInt value.number ++
    Wire.writeOption DocDesc.write value.doc

def read : Reader EnumValueDesc := return ⟨← .text, ← .int, ← .option DocDesc.read⟩

end EnumValueDesc

namespace EnumDesc

def write (enum : EnumDesc) : Bytes :=
  Wire.writeText enum.name ++ Wire.writeOption DocDesc.write enum.doc ++
    OptionsDesc.write enum.options ++ Wire.writeList EnumValueDesc.write enum.values

def read : Reader EnumDesc :=
  return ⟨← .text, ← .option DocDesc.read, ← OptionsDesc.read, ← .list EnumValueDesc.read⟩

end EnumDesc

mutual

def MessageDesc.write : MessageDesc → Bytes
  | ⟨name, doc, options, fields, messages, enums⟩ =>
    Wire.writeText name ++ Wire.writeOption DocDesc.write doc ++ OptionsDesc.write options ++
      (Wire.writeLength fields.length ++ writeFields fields) ++
      (Wire.writeLength messages.length ++ writeMessages messages) ++
      Wire.writeList EnumDesc.write enums

def FieldDesc.write : FieldDesc → Bytes
  | ⟨name, tag, type, options, doc⟩ =>
    Wire.writeText name ++ Wire.writeInt tag ++ type.write ++ OptionsDesc.write options ++
      Wire.writeOption DocDesc.write doc

def TypeDesc.write : TypeDesc → Bytes
  | ⟨kind, key, value, keyBase, valueBase, isCustom, message⟩ =>
    kind.write ++ Wire.writeText key ++ Wire.writeText value ++
      Wire.writeOption BaseType.write keyBase ++ Wire.writeOption BaseType.write valueBase ++
      Wire.writeBool isCustom ++ writeMessage? message

def writeFields : List FieldDesc → Bytes
  | [] => []
  | field :: fields => field.write ++ writeFields fields

def writeMessages : List MessageDesc → Bytes
  | [] => []
  | message :: messages => message.write ++ writeMessages messages

def writeMessage? : Option MessageDesc → Bytes
  | none => [0]
  | some message => 1 :: message.write

end

def TypeDesc.readWith (message : Reader MessageDesc) : Reader TypeDesc :=
  return ⟨← FieldKind.read, ← .text, ← .text, ← .option BaseType.read, ← .option BaseType.read,
    ← .bool, ← .option message⟩

def FieldDesc.readWith (message : Reader MessageDesc) : Reader FieldDesc :=
  return ⟨← .text, ← .int, ← TypeDesc.readWith message, ← OptionsDesc.read,
    ← .option DocDesc.read⟩

namespace MessageDesc

def readWith (message : Reader MessageDesc) : Reader MessageDesc :=
  return ⟨← .text, ← .option DocDesc.read, ← OptionsDesc.read,
    ← .list (FieldDesc.readWith message), ← .list message, ← .list EnumDesc.read⟩

def read : Reader MessageDesc := Reader.recursive readWith

end MessageDesc

namespace MethodDesc

def write (method : MethodDesc) : Bytes :=
  Wire.writeText method.name ++ Wire.writeOption DocDesc.write method.doc ++
    OptionsDesc.write method.options ++ Wire.writeOption Wire.writeInt method.id ++
    method.mode.write ++ Wire.writeOption MessageDesc.write method.request ++
    Wire.writeOption MessageDesc.write method.reply

def read : Reader MethodDesc :=
  return ⟨← .text, ← .option DocDesc.read, ← OptionsDesc.read, ← .option .int, ← CallMode.read,
    ← .option MessageDesc.read, ← .option MessageDesc.read⟩

end MethodDesc

namespace ServiceDesc

def write (service : ServiceDesc) : Bytes :=
  Wire.writeText service.name ++ Wire.writeOption DocDesc.write service.doc ++
    OptionsDesc.write service.options ++ Wire.writeList MethodDesc.write service.methods

def read : Reader ServiceDesc :=
  return ⟨← .text, ← .option DocDesc.read, ← OptionsDesc.read, ← .list MethodDesc.read⟩

end ServiceDesc

namespace ProjectDesc

def write (project : ProjectDesc) : Bytes :=
  Wire.writeText project.name ++ Wire.writeOption DocDesc.write project.doc ++
    Wire.writeTable OptionsDesc.write project.areas

def read : Reader ProjectDesc :=
  return ⟨← .text, ← .option DocDesc.read, ← .table OptionsDesc.read⟩

end ProjectDesc

namespace FileDesc

def write (file : FileDesc) : Bytes :=
  Wire.writeText file.file ++ file.package.write ++ OptionsDesc.write file.options ++
    Wire.writeList ImportDesc.write file.imports ++ Wire.writeList EnumDesc.write file.enums ++
    Wire.writeList MessageDesc.write file.messages ++
    Wire.writeList ServiceDesc.write file.services ++
    Wire.writeList ProjectDesc.write file.projects

def read : Reader FileDesc :=
  return ⟨← .text, ← PackageDesc.read, ← OptionsDesc.read, ← .list ImportDesc.read,
    ← .list EnumDesc.read, ← .list MessageDesc.read, ← .list ServiceDesc.read,
    ← .list ProjectDesc.read⟩

end FileDesc

end Idl

import Idl.Assoc
import Idl.Schema

/-!
# Descriptors

A descriptor is what a generator sees of a program: options are tables, places in the source are
gone, and a field whose type is a message holds a copy of it.
-/

namespace Idl

structure DocDesc where
  lines : List String
  tail : String
deriving DecidableEq, Repr

/-- Options by key; an option without a value has none. -/
abbrev OptionsDesc := Assoc String (Option OptionValue)

structure PackageDesc where
  package : String
  doc : Option DocDesc
deriving DecidableEq, Repr

structure ImportDesc where
  localName : String
  file : String
  doc : Option DocDesc
deriving DecidableEq, Repr

structure EnumValueDesc where
  name : String
  number : Int64
  doc : Option DocDesc
deriving DecidableEq, Repr

structure EnumDesc where
  name : String
  doc : Option DocDesc
  options : OptionsDesc
  values : List EnumValueDesc
deriving DecidableEq, Repr

inductive FieldKind
  | base
  | custom
  | list
  | map
deriving DecidableEq, Repr

mutual

structure MessageDesc where
  name : String
  doc : Option DocDesc
  options : OptionsDesc
  fields : List FieldDesc
  messages : List MessageDesc
  enums : List EnumDesc

structure FieldDesc where
  name : String
  tag : Int64
  type : TypeDesc
  options : OptionsDesc
  doc : Option DocDesc

/-- The type of a field.  `key` names the base type, the custom type, the element of a list or the
key of a map, and `value` the value of a map. -/
structure TypeDesc where
  kind : FieldKind
  key : String
  value : String
  keyBase : Option BaseType
  valueBase : Option BaseType
  isCustom : Bool
  message : Option MessageDesc

end

def MessageDesc.named (name : String) : MessageDesc := ⟨name, none, [], [], [], []⟩

structure MethodDesc where
  name : String
  doc : Option DocDesc
  options : OptionsDesc
  id : Option Int64
  mode : CallMode
  request : Option MessageDesc
  reply : Option MessageDesc

structure ServiceDesc where
  name : String
  doc : Option DocDesc
  options : OptionsDesc
  methods : List MethodDesc

structure ProjectDesc where
  name : String
  doc : Option DocDesc
  areas : Assoc String OptionsDesc
deriving DecidableEq, Repr

structure FileDesc where
  file : String
  package : PackageDesc
  options : OptionsDesc
  imports : List ImportDesc
  enums : List EnumDesc
  messages : List MessageDesc
  services : List ServiceDesc
  projects : List ProjectDesc

end Idl

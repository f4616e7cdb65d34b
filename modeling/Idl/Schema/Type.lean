import Idl.Schema.Ref
import Idl.Source.Span

/-!
# Field types

A field holds one element, a list of elements, or a map from a base type to elements.  An element
is a base type or the name of a declared message or enum.
-/

namespace Idl

inductive BaseType
  | int8
  | int16
  | int32
  | int64
  | uint8
  | uint16
  | uint32
  | uint64
  | string
  | binary
  | bool
  | float32
  | float64
deriving DecidableEq, Repr

namespace BaseType

def all : List BaseType :=
  [int8, int16, int32, int64, uint8, uint16, uint32, uint64, string, binary, bool, float32, float64]

def name : BaseType → String
  | int8 => "int8"
  | int16 => "int16"
  | int32 => "int32"
  | int64 => "int64"
  | uint8 => "uint8"
  | uint16 => "uint16"
  | uint32 => "uint32"
  | uint64 => "uint64"
  | string => "string"
  | binary => "binary"
  | bool => "bool"
  | float32 => "float32"
  | float64 => "float64"

def aliases : List (String × BaseType) :=
  [("bytes", binary), ("[]byte", binary), ("float", float32), ("double", float64),
    ("boolean", bool)]

def ofName? (name : String) : Option BaseType :=
  match aliases.lookup name with
  | some base => some base
  | none => all.find? (·.name == name)

def isMapKey (base : BaseType) : Bool := base != binary

end BaseType

def splitLastDot? (s : String) : Option (String × String) :=
  let ending := s.toList.reverse.takeWhile (· != '.')
  match s.toList.reverse.dropWhile (· != '.') with
  | [] => none
  | _ :: before => some (String.ofList before.reverse, String.ofList ending.reverse)

/-- The name of a message or an enum as it is written, and the declaration it is bound to. -/
structure TypeName where
  name : Located String
  target : Option TypeRef
deriving DecidableEq, Repr

namespace TypeName

def unbound (name : Located String) : TypeName := ⟨name, none⟩

def qualified? (t : TypeName) : Option (String × String) := splitLastDot? t.name.value

end TypeName

/-- What a field holds, or what a list or a map holds many of. -/
inductive ElemType
  | base (base : BaseType)
  | custom (type : TypeName)
deriving DecidableEq, Repr

namespace ElemType

def name : ElemType → String
  | base b => b.name
  | custom t => t.name.value

def custom? : ElemType → Option TypeName
  | base _ => none
  | custom t => some t

def mapCustom (f : TypeName → TypeName) : ElemType → ElemType
  | base b => base b
  | custom t => custom (f t)

end ElemType

/-- The type of a field; containers do not nest. -/
inductive FieldType
  | single (elem : ElemType)
  | list (elem : ElemType)
  | map (key : BaseType) (value : ElemType)
deriving DecidableEq, Repr

namespace FieldType

/-- The element that may need to be bound: the field's own, the list's or the map value's. -/
def elem : FieldType → ElemType
  | single e | list e | map _ e => e

def custom? (t : FieldType) : Option TypeName := t.elem.custom?

def mapCustom (f : TypeName → TypeName) : FieldType → FieldType
  | single e => single (e.mapCustom f)
  | list e => list (e.mapCustom f)
  | map key e => map key (e.mapCustom f)

def text : FieldType → String
  | single e => e.name
  | list e => "repeated " ++ e.name
  | map key e => "map<" ++ key.name ++ ", " ++ e.name ++ ">"

end FieldType

end Idl

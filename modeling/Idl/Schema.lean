import Idl.Schema.Option
import Idl.Schema.Type

/-!
# Schemas

The declarations of one source file.  Both dialects are read into the same tree.
-/

namespace Idl

structure EnumValue where
  name : Located String
  number : Int64
  doc : Doc
deriving DecidableEq, Repr

/-- Values with their numbers.  A value without a number counts on from the one before it, and the
first from zero; the count wraps around at 64 bits. -/
def EnumValue.numbered (previous : Option Int64) :
    List (Located String × Option Int64) → List EnumValue
  | [] => []
  | (name, number) :: values =>
    let number := number.getD (match previous with
      | some n => n + 1
      | none => 0)
    ⟨name, number, .none⟩ :: numbered (some number) values

structure EnumDef where
  name : Located String
  doc : Doc
  values : List EnumValue
  options : List OptionDecl
deriving DecidableEq, Repr

structure Field where
  name : Located String
  tag : Located Int64
  type : FieldType
  options : List OptionDecl
  doc : Doc
deriving DecidableEq, Repr

structure Message where
  name : Located String
  doc : Doc
  fields : List Field
  messages : List Message
  enums : List EnumDef
  options : List OptionDecl
deriving Repr, BEq

namespace Message

def messageIndex? (m : Message) (name : String) : Option Nat :=
  m.messages.findIdx? (·.name.value == name)

def enumIndex? (m : Message) (name : String) : Option Nat :=
  m.enums.findIdx? (·.name.value == name)

def descend (m : Message) : List Nat → Option Message
  | [] => some m
  | i :: path =>
    match m.messages[i]? with
    | some sub => sub.descend path
    | none => none

end Message

inductive MethodMessage
  /-- A message made up for the method, with one field of the written type. -/
  | inline (message : Message)
  | stub (name : Located String) (target : Option MessageRef)
deriving Repr, BEq

inductive CallMode
  | call
  | notify
deriving DecidableEq, Repr

structure Method where
  name : Located String
  doc : Doc
  request : Option MethodMessage
  reply : Option MethodMessage
  id : Option (Located Int64)
  mode : CallMode
  options : List OptionDecl
deriving Repr, BEq

structure Service where
  name : Located String
  doc : Doc
  methods : List Method
  options : List OptionDecl
deriving Repr, BEq

/-- The options of a project for one area; the area of no name is the default. -/
structure ProjectArea where
  name : Located String
  options : List OptionDecl
deriving DecidableEq, Repr

/-- Settings of a deployment, area by area.  No two areas share a name. -/
structure Project where
  name : Located String
  doc : Doc
  areas : List ProjectArea
deriving DecidableEq, Repr

namespace Project

def openArea (name : Located String) (areas : List ProjectArea) : List ProjectArea :=
  if areas.any (·.name.value == name.value) then areas else areas ++ [⟨name, []⟩]

def addOption (name : Located String) (option : OptionDecl) (areas : List ProjectArea) :
    List ProjectArea :=
  (openArea name areas).map fun area =>
    if area.name.value = name.value then { area with options := area.options ++ [option] }
    else area

end Project

structure Package where
  name : Located String
  doc : Doc
deriving DecidableEq, Repr

structure Import where
  file : Located String
  localName : Option (Located String)
  doc : Doc
  target : Option ProgramId
deriving DecidableEq, Repr

/-- The declarations of one file, kind by kind in the order of the source. -/
structure Schema where
  package : Package
  imports : List Import
  options : List OptionDecl
  enums : List EnumDef
  messages : List Message
  services : List Service
  projects : List Project
deriving Repr, BEq

namespace Schema

def message? (s : Schema) : MessagePath → Option Message
  | [] => none
  | i :: path => s.messages[i]?.bind (·.descend path)

def enum? (s : Schema) (path : EnumPath) : Option EnumDef :=
  match path.owner with
  | some owner => (s.message? owner).bind (·.enums[path.index]?)
  | none => s.enums[path.index]?

end Schema

end Idl

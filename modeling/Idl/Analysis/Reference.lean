import Idl.Diagnostic
import Idl.Program

/-!
# References

Binding a type name means finding the declaration it stands for.  A bare name is looked for in the
message around it, then in the whole program; a qualified name in the imports of that name, or in
the program itself when the program declares that package.
-/

namespace Idl

inductive Place
  | message (name : String)
  | request (service method : String)
  | reply (service method : String)
deriving DecidableEq, Repr

def Place.text : Place → String
  | message name => "message `" ++ name ++ "`"
  | request service method => "request of method `" ++ service ++ "." ++ method ++ "`"
  | reply service method => "reply of method `" ++ service ++ "." ++ method ++ "`"

inductive Unresolved
  | fieldType (name : Located String) (field : String) (place : Place)
  | methodMessage (name : Located String) (place : Place)
deriving DecidableEq, Repr

def Unresolved.diagnostic : Unresolved → Diagnostic
  | fieldType name field place =>
    report .unresolvedType name ("field `" ++ field ++ "` of " ++ place.text)
  | methodMessage name place => report .unresolvedMethodMessage name place.text
where
  report (code : Code) (name : Located String) (trail : String) : Diagnostic :=
    .error code ("unresolved type `" ++ name.value ++ "` in " ++ trail) name.span "not found"
      (some "declare the type, or import the file that declares it and qualify the name")

namespace Scope

def findMessage? (scope : Scope) (id : ProgramId) (name : String) : Option MessageRef :=
  (scope.messages.lookup name).map (⟨id, ·⟩)

/-- The message of a name, or else the enum. -/
def find? (scope : Scope) (id : ProgramId) (name : String) : Option TypeRef :=
  match scope.findMessage? id name with
  | some ref => some (.message ref)
  | none => (scope.enums.lookup name).map fun path => .enum ⟨id, path⟩

end Scope

def Message.find? (message : Message) (id : ProgramId) (path : MessagePath) (name : String) :
    Option TypeRef :=
  match message.messageIndex? name with
  | some index => some (.message ⟨id, path ++ [index]⟩)
  | none => (message.enumIndex? name).map fun index => .enum ⟨id, some path, index⟩

namespace Program

/-- The declaration that a type name of this program stands for in the whole program. -/
def resolve? (arena : Arena) (id : ProgramId) (program : Program) (type : TypeName) :
    Option TypeRef :=
  match type.qualified? with
  | none => program.scope.find? id type.name.value
  | some (reference, name) =>
    match program.references.bind (·.lookup reference) with
    | some ids => ids.findSome? fun i => arena[i]?.bind (·.scope.find? i name)
    | none => if reference = program.package then program.scope.find? id name else none

/-- The declared message that a bare method message of this program stands for.  It may be
qualified with the program's own package, or with that of any program it imports. -/
def resolveStub? (arena : Arena) (id : ProgramId) (program : Program) (name : String) :
    Option MessageRef :=
  match splitLastDot? name with
  | none => program.scope.findMessage? id name
  | some (package, short) =>
    if package = program.package then program.scope.findMessage? id short
    else
      ((program.references.getD []).flatMap (·.2)).findSome? fun i =>
        arena[i]?.bind fun imported =>
          if imported.package = package then imported.scope.findMessage? i short else none

end Program

/-- Changes elements in order up to the first failure; the rest stays as it is. -/
def mapUntil {α ε : Type} (f : α → α × Option ε) : List α → List α × Option ε
  | [] => ([], none)
  | x :: xs =>
    match f x with
    | (y, some e) => (y :: xs, some e)
    | (y, none) =>
      let (ys, e) := mapUntil f xs
      (y :: ys, e)

/-- Binds the type of a field, unless it is bound or has nothing to bind. -/
def Field.bind (resolve : TypeName → Option TypeRef) (place : Place) (field : Field) :
    Field × Option Unresolved :=
  match field.type.custom? with
  | none => (field, none)
  | some type =>
    if type.target.isSome then (field, none)
    else match resolve type with
      | none => (field, some (.fieldType type.name field.name.value place))
      | some target =>
        ({ field with type := field.type.mapCustom ({ · with target := some target }) }, none)

namespace Message

mutual

def bind (resolve : TypeName → Option TypeRef) (id : ProgramId) (path : MessagePath) :
    Message → Message × Option Unresolved
  | ⟨name, doc, fields, messages, enums, options⟩ =>
    let lookUp (type : TypeName) : Option TypeRef :=
      match find? ⟨name, doc, fields, messages, enums, options⟩ id path type.name.value with
      | some target => some target
      | none => resolve type
    match mapUntil (·.bind lookUp (.message name.value)) fields with
    | (fields, some fault) => (⟨name, doc, fields, messages, enums, options⟩, some fault)
    | (fields, none) =>
      let (messages, fault) := bindAll resolve id path 0 messages
      (⟨name, doc, fields, messages, enums, options⟩, fault)

def bindAll (resolve : TypeName → Option TypeRef) (id : ProgramId) (path : MessagePath)
    (index : Nat) : List Message → List Message × Option Unresolved
  | [] => ([], none)
  | message :: messages =>
    match message.bind resolve id (path ++ [index]) with
    | (message, some fault) => (message :: messages, some fault)
    | (message, none) =>
      let (messages, fault) := bindAll resolve id path (index + 1) messages
      (message :: messages, fault)

end

end Message

namespace MethodMessage

def bind (resolve : TypeName → Option TypeRef) (resolveStub : String → Option MessageRef)
    (place : Place) : MethodMessage → MethodMessage × Option Unresolved
  | inline message =>
    let (fields, fault) := mapUntil (·.bind resolve place) message.fields
    (inline { message with fields }, fault)
  | stub name (some target) => (stub name (some target), none)
  | stub name none =>
    match resolveStub name.value with
    | some target => (stub name (some target), none)
    | none => (stub name none, some (.methodMessage name place))

def bind? (resolve : TypeName → Option TypeRef) (resolveStub : String → Option MessageRef)
    (place : Place) : Option MethodMessage → Option MethodMessage × Option Unresolved
  | none => (none, none)
  | some message =>
    let (message, fault) := message.bind resolve resolveStub place
    (some message, fault)

end MethodMessage

def Method.bind (resolve : TypeName → Option TypeRef) (resolveStub : String → Option MessageRef)
    (service : String) (method : Method) : Method × Option Unresolved :=
  let name := method.name.value
  match MethodMessage.bind? resolve resolveStub (.request service name) method.request with
  | (request, some fault) => ({ method with request }, some fault)
  | (request, none) =>
    let (reply, fault) :=
      MethodMessage.bind? resolve resolveStub (.reply service name) method.reply
    ({ method with request, reply }, fault)

def Diagnostic.notLoaded (id : ProgramId) : Diagnostic where
  severity := .error
  code := none
  message := "program #" ++ toString id ++ " is not loaded"
  labels := []
  help := none

/-- Binds the types of a program, in services first; what is bound before the first failure
stays bound. -/
def Program.bindReferences (arena : Arena) (id : ProgramId) (program : Program) :
    Program × Option Unresolved :=
  let resolve := program.resolve? arena id
  let resolveStub := program.resolveStub? arena id
  let bindService (service : Service) : Service × Option Unresolved :=
    let (methods, fault) :=
      mapUntil (·.bind resolve resolveStub service.name.value) service.methods
    ({ service with methods }, fault)
  let schema := program.schema
  match mapUntil bindService schema.services with
  | (services, some fault) => ({ program with schema := { schema with services } }, some fault)
  | (services, none) =>
    let (messages, fault) := Message.bindAll resolve id [] 0 schema.messages
    ({ program with schema := { schema with services, messages } }, fault)

end Idl

import Idl.Analysis.Clash
import Idl.Dialect
import Idl.Program

/-!
# Definitions

Enums, messages and services share one name space in a program, however deeply they are nested.
Entering the definitions of a program fills its scope; members, numbers and option keys have to be
distinct in a scope of their own.
-/

namespace Idl

def checkOptionKeys (owner : OptionOwner) : Sites String → List OptionDecl → Except Clash Unit
  | _, [] => .ok ()
  | keys, option :: options => do
    let keys ← (keys.insert option.key.value option.key.span).mapError
      (.repeated (.option owner option.key.value) option.key.span)
    checkOptionKeys owner keys options

def checkOptions (owner : OptionOwner) (options : List OptionDecl) : Except Clash Unit :=
  checkOptionKeys owner [] options

namespace EnumDef

def checkValues (enum : String) : Ledger → List EnumValue → Except Clash Unit
  | _, [] => .ok ()
  | ledger, value :: values => do
    let name := value.name
    let ledger ← (ledger.insertName name.value name.span).mapError
      (.repeated (.enumValue enum name.value) name.span)
    let ledger ← (ledger.insertNumber value.number name.span).mapError
      (.repeated (.enumNumber enum name.value value.number) name.span)
    checkValues enum ledger values

def check (enum : EnumDef) : Except Clash Unit := do
  checkValues enum.name.value .empty enum.values
  checkOptions (.enum enum.name.value) enum.options

end EnumDef

namespace Message

def checkFields (message : String) : Ledger → List Field → Except Clash Unit
  | _, [] => .ok ()
  | ledger, field :: fields => do
    let name := field.name
    let ledger ← (ledger.insertNumber field.tag.value field.tag.span).mapError
      (.repeated (.tag message name.value field.tag.value) field.tag.span)
    let ledger ← (ledger.insertName name.value name.span).mapError
      (.repeated (.field message name.value) name.span)
    checkOptions (.field message name.value) field.options
    checkFields message ledger fields

def check (message : Message) : Except Clash Unit := do
  checkFields message.name.value .empty message.fields
  checkOptions (.message message.name.value) message.options

end Message

namespace Service

def checkMethods (service : String) : Sites String → List Method → Except Clash Unit
  | _, [] => .ok ()
  | names, method :: methods => do
    let name := method.name
    let names ← (names.insert name.value name.span).mapError
      (.repeated (.method service name.value) name.span)
    checkOptions (.method service name.value) method.options
    checkMethods service names methods

/-- The name of the method whose id is written at the given place. -/
def idOwner (service : Service) (span : Span) : String :=
  match service.methods.find? fun method => method.id.any (·.span == span) with
  | some method => method.name.value
  | none => ""

def checkIds (service : Service) : Sites Int64 → List Method → Except Clash Unit
  | _, [] => .ok ()
  | ids, method :: methods =>
    match method.id with
    | none => .error (.missingId service.name.value method.name)
    | some id => do
      let ids ← (ids.insert id.value id.span).mapError fun first =>
        .repeated (.methodId service.name.value (service.idOwner first) method.name.value id.value)
          id.span first
      checkIds service ids methods

/-- The methods and the options of a service do not clash, nor do ids if they are used. -/
def check (config : ParseConfig) (service : Service) : Except Clash Unit := do
  checkMethods service.name.value [] service.methods
  checkOptions (.service service.name.value) service.options
  if config.useMethodId then service.checkIds [] service.methods

end Service

def Project.check (project : Project) : Except Clash Unit :=
  project.areas.forM fun area =>
    let owner : OptionOwner :=
      if area.name.value.isEmpty then .project project.name.value
      else .area project.name.value area.name.value
    checkOptions owner area.options

/-- A declaration whose name is known in the whole program. -/
inductive Definition
  | enum (path : EnumPath) (body : EnumDef)
  | message (path : MessagePath) (body : Message)
  | service (body : Service)

namespace Definition

def name : Definition → Located String
  | enum _ body => body.name
  | message _ body => body.name
  | service body => body.name

def kind : Definition → String
  | enum _ _ => "enum"
  | message _ _ => "message"
  | service _ => "service"

/-- The members of the definition do not clash; definitions nested in it are not looked at. -/
def check (config : ParseConfig) : Definition → Except Clash Unit
  | enum _ body => body.check
  | message _ body => body.check
  | service body => body.check config

def enums (owner : Option MessagePath) (enums : List EnumDef) : List Definition :=
  enums.zipIdx.map fun (body, index) => enum ⟨owner, index⟩ body

end Definition

namespace Message

mutual

/-- The message at a path, then the enums and the messages nested in it. -/
def definitions (path : MessagePath) : Message → List Definition
  | ⟨name, doc, fields, messages, enums, options⟩ =>
    .message path ⟨name, doc, fields, messages, enums, options⟩ ::
      Definition.enums (some path) enums ++ allDefinitions path 0 messages

def allDefinitions (path : MessagePath) (index : Nat) : List Message → List Definition
  | [] => []
  | message :: messages =>
    message.definitions (path ++ [index]) ++ allDefinitions path (index + 1) messages

end

end Message

/-- Everything that is defined by name: enums, messages with what is nested in them, services. -/
def Schema.definitions (schema : Schema) : List Definition :=
  Definition.enums none schema.enums ++ Message.allDefinitions [] 0 schema.messages ++
    schema.services.map .service

namespace Scope

def define (scope : Scope) (d : Definition) : Except Clash Scope := do
  let names ← (scope.names.insert d.name.value d.name.span).mapError
    (.repeated (.definition d.kind d.name.value) d.name.span)
  match d with
  | .enum path body =>
    return { scope with names, enums := scope.enums ++ [(body.name.value, path)] }
  | .message path body =>
    return { scope with names, messages := scope.messages ++ [(body.name.value, path)] }
  | .service _ => return { scope with names }

/-- Adds definitions and checks the members of each, up to the first clash. -/
def enter (config : ParseConfig) : Scope → List Definition → Scope × Option Clash
  | scope, [] => (scope, none)
  | scope, d :: ds =>
    match scope.define d with
    | .error clash => (scope, some clash)
    | .ok scope =>
      match d.check config with
      | .error clash => (scope, some clash)
      | .ok () => enter config scope ds

end Scope

def Program.checkDefinitions (config : ParseConfig) (program : Program) : Program × Option Clash :=
  match checkOptions .package program.schema.options with
  | .error clash => (program, some clash)
  | .ok () =>
    match program.scope.enter config program.schema.definitions with
    | (scope, some clash) => ({ program with scope }, some clash)
    | (scope, none) =>
      match program.schema.projects.forM Project.check with
      | .error clash => ({ program with scope }, some clash)
      | .ok () => ({ program with scope }, none)

end Idl

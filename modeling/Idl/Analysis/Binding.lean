import Idl.Schema

/-!
# Bindings

A view of the type names of a schema: where each of them stands, and what it is bound to.
-/

namespace Idl

/-- A type name, the way to it through the names of declarations, and what it is bound to. -/
structure Binding where
  trail : String
  name : String
  target : Option TypeRef
deriving DecidableEq, Repr

def Field.binding? (trail : String) (field : Field) : Option Binding :=
  field.type.custom?.map fun type =>
    ⟨trail ++ "." ++ field.name.value, type.name.value, type.target⟩

namespace Message

mutual

/-- The type names of the fields of a message, then those of the messages nested in it. -/
def bindings (trail : String) : Message → List Binding
  | ⟨_, _, fields, messages, _, _⟩ =>
    fields.filterMap (·.binding? trail) ++ nestedBindings (trail ++ ".") messages

def nestedBindings (start : String) : List Message → List Binding
  | [] => []
  | message :: messages =>
    message.bindings (start ++ message.name.value) ++ nestedBindings start messages

end

end Message

def MethodMessage.bindings (trail : String) : MethodMessage → List Binding
  | inline message => message.bindings trail
  | stub name target => [⟨trail, name.value, target.map .message⟩]

def Method.bindings (service : String) (method : Method) : List Binding :=
  let trail := service ++ "." ++ method.name.value
  method.request.toList.flatMap (·.bindings (trail ++ ".request")) ++
    method.reply.toList.flatMap (·.bindings (trail ++ ".reply"))

def Schema.bindings (schema : Schema) : List Binding :=
  schema.services.flatMap (fun service => service.methods.flatMap (·.bindings service.name.value))
    ++ Message.nestedBindings "" schema.messages

end Idl

import Idl.Schema

/-!
# Documented declarations

The declarations that can carry comments, in a fixed order: one traversal visits the place and the
comments of each.  The messages made up for a method are not visited.
-/

namespace Idl

universe u

variable {m : Type → Type u} [Monad m]

def OptionDecl.traverseDocs (visit : Span → Doc → m Doc) (option : OptionDecl) : m OptionDecl := do
  return { option with doc := ← visit option.key.span option.doc }

def EnumValue.traverseDocs (visit : Span → Doc → m Doc) (value : EnumValue) : m EnumValue := do
  return { value with doc := ← visit value.name.span value.doc }

def EnumDef.traverseDocs (visit : Span → Doc → m Doc) (enum : EnumDef) : m EnumDef := do
  let doc ← visit enum.name.span enum.doc
  let values ← enum.values.mapM (·.traverseDocs visit)
  let options ← enum.options.mapM (·.traverseDocs visit)
  return { enum with doc, values, options }

def Field.traverseDocs (visit : Span → Doc → m Doc) (field : Field) : m Field := do
  let doc ← visit field.name.span field.doc
  let options ← field.options.mapM (·.traverseDocs visit)
  return { field with doc, options }

namespace Message

mutual

def traverseDocs (visit : Span → Doc → m Doc) : Message → m Message
  | ⟨name, doc, fields, messages, enums, options⟩ => do
    let doc ← visit name.span doc
    let fields ← fields.mapM (·.traverseDocs visit)
    let options ← options.mapM (·.traverseDocs visit)
    let enums ← enums.mapM (·.traverseDocs visit)
    let messages ← traverseAllDocs visit messages
    return ⟨name, doc, fields, messages, enums, options⟩

def traverseAllDocs (visit : Span → Doc → m Doc) : List Message → m (List Message)
  | [] => return []
  | message :: messages => do
    let message ← message.traverseDocs visit
    let messages ← traverseAllDocs visit messages
    return message :: messages

end

end Message

def Method.traverseDocs (visit : Span → Doc → m Doc) (method : Method) : m Method := do
  let doc ← visit method.name.span method.doc
  let options ← method.options.mapM (·.traverseDocs visit)
  return { method with doc, options }

def Service.traverseDocs (visit : Span → Doc → m Doc) (service : Service) : m Service := do
  let doc ← visit service.name.span service.doc
  let options ← service.options.mapM (·.traverseDocs visit)
  let methods ← service.methods.mapM (·.traverseDocs visit)
  return { service with doc, options, methods }

def Project.traverseDocs (visit : Span → Doc → m Doc) (project : Project) : m Project := do
  let doc ← visit project.name.span project.doc
  let areas ← project.areas.mapM fun area => do
    return { area with options := ← area.options.mapM (·.traverseDocs visit) }
  return { project with doc, areas }

namespace Schema

/-- The package, then imports, options, enums, messages, services and projects. -/
def traverseDocs (visit : Span → Doc → m Doc) (schema : Schema) : m Schema := do
  let packageDoc ← visit schema.package.name.span schema.package.doc
  let imports ← schema.imports.mapM fun item => do
    return { item with doc := ← visit item.file.span item.doc }
  let options ← schema.options.mapM (·.traverseDocs visit)
  let enums ← schema.enums.mapM (·.traverseDocs visit)
  let messages ← Message.traverseAllDocs visit schema.messages
  let services ← schema.services.mapM (·.traverseDocs visit)
  let projects ← schema.projects.mapM (·.traverseDocs visit)
  return {
    package := { schema.package with doc := packageDoc }
    imports, options, enums, messages, services, projects }

/-- The places of the declarations that can carry comments. -/
def documentedAt (schema : Schema) : List Span :=
  let record (span : Span) (doc : Doc) : StateM (List Span) Doc := do
    modify (· ++ [span])
    return doc
  ((schema.traverseDocs record).run []).2

/-- Gives the declarations that can carry comments the comments listed for them. -/
def withDocs (schema : Schema) (docs : List Doc) : Schema :=
  let take (_ : Span) (doc : Doc) : StateM (List Doc) Doc := fun docs =>
    match docs with
    | [] => (doc, [])
    | first :: docs => (first, docs)
  ((schema.traverseDocs take).run docs).1

end Schema

end Idl

import Idl.Proofs.Schema.Relabel
import Idl.Schema.Documented

/-!
# Declarations under a visit of their comments

A visit of the comments of a schema replaces comments and nothing else, whatever it does to each of
them: once all comments are forgotten, the schema is the same before and after it, and so are its
places.  A property that does not depend on comments is kept when declarations are given theirs.
-/

namespace Idl

open List

/-- Places are changed as given, and comments are forgotten. -/
def Relabel.moved (place : Span → Span) : Relabel := ⟨place, fun _ => .none⟩

section Visit

variable {σ α γ : Type} (place : Span → Span) (visit : Span → Doc → StateM σ Doc)

theorem OptionDecl.relabel_traverseDocs (options : List OptionDecl) (s : σ) :
    (options.mapM (·.traverseDocs visit) s).1.map (·.relabel (.moved place)) =
      options.map (·.relabel (.moved place)) :=
  map_mapM_eq (fun _ _ => rfl) options s

theorem EnumDef.relabel_traverseDocs (enum : EnumDef) (s : σ) :
    (enum.traverseDocs visit s).1.relabel (.moved place) = enum.relabel (.moved place) := by
  unfold relabel
  congr 1
  · exact map_mapM_eq (fun _ _ => rfl) _ _
  · exact OptionDecl.relabel_traverseDocs place visit _ _

theorem Field.relabel_traverseDocs (field : Field) (s : σ) :
    (field.traverseDocs visit s).1.relabel (.moved place) = field.relabel (.moved place) := by
  unfold relabel
  congr 1
  exact OptionDecl.relabel_traverseDocs place visit _ _

mutual

theorem Message.relabel_traverseDocs : ∀ (m : Message) (s : σ),
    (m.traverseDocs visit s).1.relabel (.moved place) = m.relabel (.moved place)
  | ⟨name, doc, fields, messages, enums, options⟩, s => by
    rw [Message.traverseDocs, Message.relabel_eq, Message.relabel_eq]
    congr 1
    · exact map_mapM_eq (Field.relabel_traverseDocs place visit) _ _
    · exact Message.relabel_traverseAllDocs messages _
    · exact map_mapM_eq (EnumDef.relabel_traverseDocs place visit) _ _
    · exact OptionDecl.relabel_traverseDocs place visit _ _

theorem Message.relabel_traverseAllDocs : ∀ (messages : List Message) (s : σ),
    (traverseAllDocs visit messages s).1.map (·.relabel (.moved place)) =
      messages.map (·.relabel (.moved place))
  | [], _ => by
    rw [Message.traverseAllDocs]
    rfl
  | message :: messages, s => by
    rw [Message.traverseAllDocs, map_cons, ← Message.relabel_traverseDocs message s,
      ← Message.relabel_traverseAllDocs messages (message.traverseDocs visit s).2]
    rfl

end

theorem Method.relabel_traverseDocs (method : Method) (s : σ) :
    (method.traverseDocs visit s).1.relabel (.moved place) = method.relabel (.moved place) := by
  unfold relabel
  congr 1
  exact OptionDecl.relabel_traverseDocs place visit _ _

theorem Service.relabel_traverseDocs (service : Service) (s : σ) :
    (service.traverseDocs visit s).1.relabel (.moved place) = service.relabel (.moved place) := by
  unfold relabel
  congr 1
  · exact map_mapM_eq (Method.relabel_traverseDocs place visit) _ _
  · exact OptionDecl.relabel_traverseDocs place visit _ _

theorem Project.relabel_traverseDocs (project : Project) (s : σ) :
    (project.traverseDocs visit s).1.relabel (.moved place) = project.relabel (.moved place) := by
  unfold relabel
  congr 1
  refine map_mapM_eq (g := ProjectArea.relabel (.moved place)) (fun area s => ?_) _ _
  exact congrArg (ProjectArea.mk _) (OptionDecl.relabel_traverseDocs place visit area.options s)

theorem Schema.relabel_traverseDocs (schema : Schema) (s : σ) :
    (schema.traverseDocs visit s).1.relabel (.moved place) = schema.relabel (.moved place) := by
  unfold relabel
  congr 1
  · exact map_mapM_eq (fun _ _ => rfl) _ _
  · exact OptionDecl.relabel_traverseDocs place visit _ _
  · exact map_mapM_eq (EnumDef.relabel_traverseDocs place visit) _ _
  · exact Message.relabel_traverseAllDocs place visit _ _
  · exact map_mapM_eq (Service.relabel_traverseDocs place visit) _ _
  · exact map_mapM_eq (Project.relabel_traverseDocs place visit) _ _

end Visit

theorem Located.relabel_undocumented {α : Type} (x : Located α) : x.relabel .undocumented = x := rfl

theorem FieldType.relabel_undocumented (type : FieldType) : type.relabel .undocumented = type := by
  cases type with
  | single elem | list elem | map key elem => cases elem <;> rfl

namespace Schema

theorem relabel_withDocs (place : Span → Span) (schema : Schema) (docs : List Doc) :
    (schema.withDocs docs).relabel (.moved place) = schema.relabel (.moved place) :=
  schema.relabel_traverseDocs place _ docs

theorem undocumented_withDocs (schema : Schema) (docs : List Doc) :
    (schema.withDocs docs).relabel .undocumented = schema.relabel .undocumented :=
  schema.relabel_withDocs id docs

/-- Requests and replies are not visited. -/
theorem messages_withDocs (schema : Schema) (docs : List Doc) :
    (schema.withDocs docs).services.map (·.methods.map (·.messages)) =
      schema.services.map (·.methods.map (·.messages)) :=
  map_mapM_eq (g := fun service : Service => service.methods.map (·.messages))
    (fun _ _ => map_mapM_eq (g := Method.messages) (fun _ _ => rfl) _ _) _ _

/-- What does not depend on comments is kept when declarations are given theirs. -/
theorem withDocs_iff
    {P : Schema → Prop} (hP : ∀ schema : Schema, P (schema.relabel .undocumented) ↔ P schema)
    (schema : Schema) (docs : List Doc) : P (schema.withDocs docs) ↔ P schema := by
  rw [← hP, undocumented_withDocs, hP]

end Schema

end Idl

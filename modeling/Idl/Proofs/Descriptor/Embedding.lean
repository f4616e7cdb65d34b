import Idl.Proofs.Analysis.Renumbering
import Idl.Proofs.Descriptor.Expansion

/-!
# Descriptors in larger arenas

A descriptor mentions no numbers.  Where an arena is embedded in another, with its programs under
other numbers and among others, every program of it has the descriptor that it had, but for the name
of its file.
-/

namespace Idl

open List

variable {ρ : ProgramId → ProgramId} {ref : MessageRef} {opened : List MessageRef}

/-! ## Copies of what is renumbered -/

theorem TypeName.embed_renumber (copy : MessageRef → Option MessageDesc) (type : TypeName) :
    (type.renumber ρ).embed copy = type.embed fun ref => copy (ref.renumber ρ) := by
  obtain ⟨name, target⟩ := type
  cases target with
  | none => rfl
  | some target => cases target <;> rfl

theorem Field.describe_renumber (copy : MessageRef → Option MessageDesc) (field : Field) :
    (field.renumber ρ).describe copy = field.describe fun ref => copy (ref.renumber ρ) := by
  have htype : (field.type.mapCustom (·.renumber ρ)).describe copy =
      field.type.describe fun ref => copy (ref.renumber ρ) := by
    have hname : ∀ type : TypeName, (type.renumber ρ).name = type.name := fun _ => rfl
    cases field.type with
    | single elem | list elem | map key elem =>
      cases elem <;> simp only [FieldType.mapCustom, ElemType.mapCustom, FieldType.describe,
        TypeName.embed_renumber, hname]
  simp only [Field.describe, Field.renumber, htype]

theorem Message.describe_renumber (copy : MessageRef → Option MessageDesc) (m : Message) :
    (m.renumber ρ).describe copy = m.describe fun ref => copy (ref.renumber ρ) := by
  induction m using induction_nested with
  | h m ih =>
    have hmessages : (m.messages.map (·.renumber ρ)).map (·.describe copy) =
        m.messages.map (·.describe fun ref => copy (ref.renumber ρ)) := by
      rw [map_map]
      exact map_congr_left ih
    rw [renumber_eq, describe_eq, describe_eq, hmessages]
    simp only [map_map, Function.comp_def, Field.describe_renumber]

/-! ## Embedded arenas -/

/-- The programs of one arena are in the other, under new numbers, and refer to each other as they
did. -/
structure Arena.Embeds (ρ : ProgramId → ProgramId) (arena arena' : Arena) : Prop where
  injective : Function.Injective ρ
  schema : ∀ id : ProgramId,
    arena'[ρ id]?.map (·.schema) = arena[id]?.map (·.schema.renumber ρ)

namespace Arena.Embeds

variable {arena arena' : Arena}

theorem message?_eq (h : Embeds ρ arena arena') (ref : MessageRef) :
    arena'.message? (ref.renumber ρ) = (arena.message? ref).map (·.renumber ρ) := by
  have hbind : ∀ (arena : Arena) (id : ProgramId) (path : MessagePath),
      (arena[id]?.bind (·.schema.message? path)) =
        (arena[id]?.map (·.schema)).bind (·.message? path) := by
    intro arena id path
    rw [Option.bind_map]
    rfl
  rw [message?, message?, hbind, MessageRef.renumber, h.schema ref.program, Option.bind_map,
    Option.map_bind]
  exact congrArg _ (funext fun program => program.schema.message?_renumber ρ ref.path)

theorem renumber_mem_iff (h : Embeds ρ arena arena') :
    ref.renumber ρ ∈ opened.map (·.renumber ρ) ↔ ref ∈ opened := by
  refine mem_map_of_injective ?_
  rintro ⟨id, path⟩ ⟨id', path'⟩ heq
  obtain ⟨hid, hpath⟩ := MessageRef.mk.inj heq
  exact congrArg₂ MessageRef.mk (h.injective hid) hpath

/-- Copies are opened, and cut off, at the same places. -/
theorem copy_eq_of_copied
    (h : Embeds ρ arena arena') {depth : Nat} {result : Option MessageDesc}
    (hcopied : arena.Copied depth opened ref result) :
    arena'.copy (opened.map (·.renumber ρ)) (ref.renumber ρ) = result := by
  induction hcopied with
  | missing hmessage =>
    rw [Arena.copy_eq, h.message?_eq, hmessage]
    rfl
  | named hmessage hopened =>
    rw [Arena.copy_eq, h.message?_eq, hmessage, Option.map_some, Option.map_some,
      if_pos (h.renumber_mem_iff.2 hopened), Message.renumber_eq]
  | opened hmessage hopened _ ih =>
    rw [Arena.copy_eq, h.message?_eq, hmessage, Option.map_some, Option.map_some,
      if_neg (mt h.renumber_mem_iff.1 hopened), Message.describe_renumber]
    exact congrArg some (Message.describe_congr _ ih)

theorem copy_eq (h : Embeds ρ arena arena') (opened : List MessageRef) (ref : MessageRef) :
    arena'.copy (opened.map (·.renumber ρ)) (ref.renumber ρ) = arena.copy opened ref :=
  h.copy_eq_of_copied (Arena.copied_copy le_rfl ref)

theorem copy_nil_eq (h : Embeds ρ arena arena') :
    (fun ref : MessageRef => arena'.copy [] (ref.renumber ρ)) = arena.copy [] :=
  funext fun ref => h.copy_eq [] ref

theorem describe_methodMessage (h : Embeds ρ arena arena') (message : MethodMessage) :
    (message.renumber ρ).describe arena' = message.describe arena := by
  cases message with
  | inline message =>
    simp only [MethodMessage.renumber, MethodMessage.describe, Message.describe_renumber,
      h.copy_nil_eq]
  | stub name target =>
    have hcopy : (target.map (·.renumber ρ)).bind (arena'.copy []) =
        target.bind (arena.copy []) := by
      cases target with
      | none => rfl
      | some ref => exact h.copy_eq [] ref
    simp only [MethodMessage.renumber, MethodMessage.describe, hcopy]

theorem describe_service (h : Embeds ρ arena arena') (service : Service) :
    (service.renumber ρ).describe arena' = service.describe arena := by
  have hmethod : ∀ method :
      Method, (method.renumber ρ).describe arena' = method.describe arena := by
    intro method
    simp only [Method.renumber, Method.describe, Option.map_map, Function.comp_def,
      h.describe_methodMessage]
  simp only [Service.renumber, Service.describe, map_map, Function.comp_def, hmethod]

/-- A program has the descriptor in the larger arena that it has in the smaller one, under the name
of its file there. -/
theorem describe_eq
    (h : Embeds ρ arena arena') {program program' : Program}
    (hschema : program'.schema = program.schema.renumber ρ) :
    program'.describe arena' = { program.describe arena with file := program'.file } := by
  have hmessages : Message.describeAll (arena'.copy [])
      (program.schema.messages.map (·.renumber ρ)) =
        Message.describeAll (arena.copy []) program.schema.messages := by
    simp only [Message.describeAll_eq_map, map_map, Function.comp_def,
      Message.describe_renumber, h.copy_nil_eq]
  have hservices : (program.schema.services.map (·.renumber ρ)).map (·.describe arena') =
      program.schema.services.map (·.describe arena) := by
    rw [map_map]
    exact map_congr_left fun service _ => h.describe_service service
  have himports : (program.schema.imports.map (·.renumber ρ)).map (·.describe) =
      program.schema.imports.map (·.describe) := by
    rw [map_map]
    rfl
  simp only [Program.describe, Program.package, hschema, Schema.renumber, hmessages, hservices,
    himports]

end Arena.Embeds

end Idl

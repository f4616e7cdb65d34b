import Idl.Proofs.Analysis.Names

/-!
# Binding without local names

An import goes by its local name if it has one, and by the package of its program otherwise.  A
program can do without local names if it is bound as it is when all its imports go by packages.  It
can, in particular, if the qualifiers of its type names mean the imports of the packages of these
names.
-/

namespace Idl

open List

/-! ## Bindings tell messages apart -/

/-- What the type name of a field is bound to. -/
def Field.target? (field : Field) : Option TypeRef := field.type.custom?.bind (·.target)

theorem TypeRef.renumber_injective {ρ : ProgramId → ProgramId} (hρ : Function.Injective ρ) :
    Function.Injective (TypeRef.renumber ρ) := by
  intro ref ref' h
  cases ref with
  | message ref =>
    cases ref' with
    | message ref' =>
      obtain ⟨program, path⟩ := ref
      obtain ⟨program', path'⟩ := ref'
      obtain ⟨hprogram, hpath⟩ := MessageRef.mk.inj (TypeRef.message.inj h)
      obtain rfl : program = program' := hρ hprogram
      obtain rfl : path = path' := hpath
      rfl
    | enum _ => cases h
  | enum ref =>
    cases ref' with
    | message _ => cases h
    | enum ref' =>
      obtain ⟨program, path⟩ := ref
      obtain ⟨program', path'⟩ := ref'
      obtain ⟨hprogram, hpath⟩ := EnumRef.mk.inj (TypeRef.enum.inj h)
      obtain rfl : program = program' := hρ hprogram
      obtain rfl : path = path' := hpath
      rfl

theorem ElemType.eq_of_unbind
    {elem elem' : ElemType} (h : elem'.mapCustom (·.unbind) = elem.mapCustom (·.unbind))
    (htarget : ∀ type, elem.custom? = some type →
      elem'.custom?.bind (·.target) = elem.custom?.bind (·.target)) : elem' = elem := by
  cases elem with
  | base base =>
    cases elem' with
    | base base' => exact h
    | custom type' => cases h
  | custom type =>
    cases elem' with
    | base base' => cases h
    | custom type' =>
      obtain ⟨name, target⟩ := type
      obtain ⟨name', target'⟩ := type'
      obtain ⟨rfl, -⟩ := TypeName.mk.inj (ElemType.custom.inj h)
      obtain rfl : target' = target := htarget _ rfl
      rfl

theorem Field.eq_of_unbind
    {field field' : Field} (h : field'.unbind = field.unbind)
    (htarget : ∀ type, field.type.custom? = some type → field'.target? = field.target?) :
    field' = field := by
  obtain ⟨name, tag, type, options, doc⟩ := field
  obtain ⟨name', tag', type', options', doc'⟩ := field'
  obtain ⟨rfl, rfl, htype, rfl, rfl⟩ := Field.mk.inj h
  have hsame : type' = type := by
    cases type with
    | single elem =>
      cases type' with
      | single elem' => rw [ElemType.eq_of_unbind (FieldType.single.inj htype) htarget]
      | list _ | map _ _ => cases htype
    | list elem =>
      cases type' with
      | single _ | map _ _ => cases htype
      | list elem' => rw [ElemType.eq_of_unbind (FieldType.list.inj htype) htarget]
    | map key elem =>
      cases type' with
      | single _ | list _ => cases htype
      | map key' elem' =>
        obtain ⟨rfl, helem⟩ := FieldType.map.inj htype
        rw [ElemType.eq_of_unbind helem htarget]
  rw [hsame]

/-- Messages that differ in their bindings only are equal if their fields are bound alike. -/
theorem Message.eq_of_unbind
    {m m' : Message} (h : m'.unbind = m.unbind)
    (hfields : ∀ path sub sub', m.descend path = some sub → m'.descend path = some sub' →
      ∀ (i : Nat) field field', sub.fields[i]? = some field → sub'.fields[i]? = some field' →
        ∀ type, field.type.custom? = some type → field'.target? = field.target?) : m' = m := by
  induction m using induction_nested generalizing m' with
  | h m ih =>
    rw [unbind_eq, unbind_eq] at h
    obtain ⟨name, doc, fields, messages, enums, options⟩ := m
    obtain ⟨name', doc', fields', messages', enums', options'⟩ := m'
    obtain ⟨rfl, rfl, hbare, hbelow, rfl, rfl⟩ := Message.mk.inj h
    have hsame : fields' = fields := by
      refine eq_of_map_eq hbare fun i field' field hfield' hfield heq => ?_
      exact Field.eq_of_unbind heq (hfields [] _ _ rfl rfl i field field' hfield hfield')
    have hmessages : messages' = messages := by
      refine eq_of_map_eq hbelow fun i sub' sub hsub' hsub heq => ?_
      refine ih sub (mem_of_getElem? hsub) heq fun path inner inner' hinner hinner' => ?_
      refine hfields (i :: path) inner inner' ?_ ?_
      · rw [descend_cons, hsub]
        exact hinner
      · rw [descend_cons, hsub']
        exact hinner'
    rw [hsame, hmessages]

theorem Message.each_unbound_unbind (m : Message) : m.unbind.Each TypeName.Unbound := by
  induction m using induction_nested with
  | h m ih =>
    rw [each_iff, unbind_eq]
    simp only [forall_mem_map]
    refine ⟨fun field _ type htype => ?_, ih⟩
    rw [Field.unbind, FieldType.custom?_mapCustom] at htype
    obtain ⟨type, -, rfl⟩ := Option.map_eq_some_iff.1 htype
    rfl

theorem Message.unbind_of_unbound {m : Message} (h : m.Each TypeName.Unbound) : m.unbind = m := by
  have hfield : ∀ field : Field, field.Each TypeName.Unbound → field.unbind = field := by
    intro field hunbound
    refine Field.eq_of_unbind ?_ fun type htype => ?_
    · rw [Field.unbind, Field.unbind, FieldType.mapCustom_mapCustom]
      rfl
    · rw [Field.target?, Field.target?, Field.unbind, FieldType.custom?_mapCustom, htype]
      exact (hunbound type htype).symm
  induction m using induction_nested with
  | h m ih =>
    obtain ⟨hfields, hmessages⟩ := each_iff.1 h
    have hfields' : m.fields.map (·.unbind) = m.fields :=
      (map_congr_left fun field hmem => hfield field (hfields field hmem)).trans
        (map_id _)
    have hmessages' : m.messages.map (·.unbind) = m.messages :=
      (map_congr_left fun sub hmem => ih sub hmem (hmessages sub hmem)).trans (map_id _)
    rw [unbind_eq, hfields', hmessages']
    cases m
    rfl

namespace Schema

variable {schema schema' : Schema}

theorem messages_eq_of_unbind
    (h : schema'.messages.map (·.unbind) = schema.messages.map (·.unbind))
    (hfields : ∀ path index field field', schema.field? path index = some field →
      schema'.field? path index = some field' →
      ∀ type, field.type.custom? = some type → field'.target? = field.target?) :
    schema'.messages = schema.messages := by
  refine eq_of_map_eq h fun i m' m hm' hm heq => ?_
  refine Message.eq_of_unbind heq fun path sub sub' hsub hsub' j field field' hfield hfield' => ?_
  refine hfields (i :: path) j field field' ?_ ?_
  · rw [field?, message?_eq_some_iff.2 ⟨i, m, path, rfl, hm, hsub⟩]
    exact hfield
  · rw [field?, message?_eq_some_iff.2 ⟨i, m', path, rfl, hm', hsub'⟩]
    exact hfield'

/-- Where the same names are left, fields are bound alike. -/
theorem target?_of_references
    {ρ : ProgramId → ProgramId}
    (h : schema'.messages.map (·.redraw (.references fun id => id)) =
      schema.messages.map (·.redraw (.references ρ))) (path : MessagePath) (index : Nat) :
    (schema'.field? path index).bind Field.target? =
      ((schema.field? path index).bind Field.target?).map (·.renumber ρ) := by
  have hreference : ∀ (ρ : ProgramId → ProgramId) (field : Field),
      (field.reference ρ).target? = field.target?.map (·.renumber ρ) := by
    intro ρ field
    have hcustom : (field.reference ρ).type.custom? = field.type.custom?.map (·.reference ρ) :=
      field.type.custom?_reference ρ
    unfold Field.target?
    rw [hcustom]
    cases field.type.custom? <;> rfl
  have hsame : ∀ ref : TypeRef, ref.renumber (fun id => id) = ref := by
    intro ref
    cases ref <;> rfl
  have hfields := congrArg (Option.bind · Field.target?) (field?_of_redraw h path index)
  simp only [Redraw.references, Option.bind_map, Function.comp_def, hreference, hsame,
    Option.map_id'] at hfields
  rw [hfields, Option.map_bind]
  rfl

/-- Each field that has a type name is a field of the same name in the other schema, and is bound
there to the same declaration, in the program of the new number. -/
def KeepsReferences (ρ : ProgramId → ProgramId) (schema schema' : Schema) : Prop :=
  ∀ path index field type, schema.field? path index = some field →
    field.type.custom? = some type → ∃ field' target, schema'.field? path index = some field' ∧
      field'.name.value = field.name.value ∧ field.target? = some target ∧
      field'.target? = some (target.renumber ρ)

variable {ρ : ProgramId → ProgramId}

theorem keepsReferences_of_references
    (h : schema'.messages.map (·.redraw (.references fun id => id)) =
      schema.messages.map (·.redraw (.references ρ)))
    (hbound : ∀ m ∈ schema.messages, m.Each TypeName.Bound) : schema.KeepsReferences ρ schema' := by
  intro path index field type hfield htype
  have hfields := field?_of_redraw h path index
  rw [hfield, Option.map_some, Option.map_eq_some_iff] at hfields
  obtain ⟨field', hfield', hreference⟩ := hfields
  have hname : (field'.reference fun id => id).name.value = (field.reference ρ).name.value :=
    congrArg (fun field : Field => field.name.value) hreference
  obtain ⟨message, hmessage, hindex⟩ := Option.bind_eq_some_iff.1 hfield
  obtain ⟨target, htarget⟩ := Option.isSome_iff_exists.1 (forall_message?_iff.2 hbound path message
    hmessage field (mem_of_getElem? hindex) type htype)
  have hold : field.target? = some target := by rw [Field.target?, htype, Option.bind_some, htarget]
  have hnew := target?_of_references h path index
  rw [hfield, hfield', Option.bind_some, Option.bind_some, hold] at hnew
  exact ⟨field', target, hfield', hname, hold, hnew⟩

/-- What a schema is bound to is known from any schema that keeps its references. -/
theorem KeepsReferences.messages_eq
    {schema'' : Schema} (h : schema.KeepsReferences ρ schema'') (hρ : Function.Injective ρ)
    (hsame : schema''.messages.map (·.redraw (.references fun id => id)) =
      schema'.messages.map (·.redraw (.references ρ)))
    (hunbind : schema'.messages.map (·.unbind) = schema.messages.map (·.unbind)) :
    schema'.messages = schema.messages := by
  refine messages_eq_of_unbind hunbind fun path index field field' hfield hfield' type htype => ?_
  obtain ⟨field'', target, hfield'', -, htarget, htarget''⟩ := h path index field type hfield htype
  have hrenumbered := target?_of_references hsame path index
  rw [hfield', hfield'', Option.bind_some, Option.bind_some, htarget'', ← Option.map_some]
    at hrenumbered
  rw [htarget]
  exact (Option.map_injective (TypeRef.renumber_injective hρ) hrenumbered).symm

end Schema

/-! ## Programs without local names -/

/-- The import, which goes by the package of its program. -/
def Import.unnamed (item : Import) : Import := { item with localName := none }

namespace Program

variable {arena arena' : Arena} {id : ProgramId} {origin program linked : Program}

/-- The messages of the program as they are before they are bound, and its imports without their
local names. -/
def unnamed (program : Program) : Program :=
  { program with
    schema := { program.schema with
      imports := program.schema.imports.map (·.unnamed)
      messages := program.schema.messages.map (·.unbind)
      services := [] }
    references := none }

/-- Linked and bound without the local names of its imports, the program has the messages it has. -/
def Unaliased (arena : Arena) (id : ProgramId) (program : Program) : Prop :=
  ∃ linked, program.unnamed.linkImports arena = .ok linked ∧
    (linked.bindReferences arena id).2 = none ∧
    (linked.bindReferences arena id).1.schema.messages = program.schema.messages

theorem services_of_linkImports
    (h : program.unnamed.linkImports arena = .ok linked) : linked.schema.services = [] := by
  obtain ⟨table, -, rfl⟩ := linkImports_eq_ok_iff.1 h
  rfl

theorem exists_linkImports_unnamed
    (h : ∀ item ∈ program.schema.imports, (arena.imported? item).isSome) :
    ∃ linked, program.unnamed.linkImports arena = .ok linked := by
  refine exists_linkImports_eq_ok fun item hitem => ?_
  obtain ⟨item, hmem, rfl⟩ := mem_map.1 hitem
  exact ⟨rfl, h item hmem⟩

theorem unbind_bindReferences_unnamed
    (h : program.unnamed.linkImports arena = .ok linked) (arena' : Arena) (id : ProgramId) :
    (linked.bindReferences arena' id).1.schema.messages.map (·.unbind) =
      program.schema.messages.map (·.unbind) := by
  have hfinds : ∀ (i : Nat) (m : Message), linked.schema.messages[i]? = some m →
      ∀ rest sub, m.descend rest = some sub →
        Finds (fun _ => True) (sub.lookUp (linked.resolve? arena' id) id ([] ++ [0 + i] ++ rest)) :=
    fun _ _ _ _ _ _ _ _ _ => trivial
  have hrebound := Message.reboundAll [] 0 linked.schema.messages hfinds
  rw [(bindReferences_of_services (services_of_linkImports h) arena' id).1, hrebound.erase_eq]
  obtain ⟨table, -, rfl⟩ := linkImports_eq_ok_iff.1 h
  refine (map_map).trans (map_congr_left fun m _ => ?_)
  exact Message.unbind_of_unbound m.each_unbound_unbind

/-- A program that is bound like its unnamed self can do without local names. -/
theorem unaliased_of_copies
    (h : Copies (fun id => id) origin program.unnamed) (hqualifies : origin.Qualifies arena)
    (hmirrors : ∀ i ∈ origin.importTargets, Arena.Mirrors (fun id => id) arena arena' i)
    (hknown : ∀ item ∈ program.schema.imports, (arena'.imported? item).isSome)
    (hlink : origin.linkImports arena = .ok linked)
    (hbound : (linked.bindReferences arena id).2 = none)
    (hprogram : program.schema.messages = (linked.bindReferences arena id).1.schema.messages) :
    program.Unaliased arena' id := by
  obtain ⟨linked', hlink'⟩ := exists_linkImports_unnamed hknown
  obtain ⟨hmessages', hfault'⟩ :=
    bindReferences_of_services (services_of_linkImports hlink') arena' id
  obtain ⟨hfault, hmessages⟩ := bindReferences_of_none hbound
  obtain ⟨hiff, hreferences⟩ :=
    h.bindAll Function.injective_id hqualifies hmirrors hmirrors hlink hlink'
  rw [← hmessages', ← hmessages, ← hprogram] at hreferences
  refine ⟨linked', hlink', hfault'.trans (hiff.2 hfault), ?_⟩
  refine Schema.messages_eq_of_unbind (unbind_bindReferences_unnamed hlink' arena' id) ?_
  intro path index field field' hfield hfield' type _
  have htarget := Schema.target?_of_references hreferences path index
  rw [hfield, hfield', Option.bind_some, Option.bind_some] at htarget
  rw [htarget]
  cases field.target? with
  | none => rfl
  | some target => cases target <;> rfl

end Program

end Idl

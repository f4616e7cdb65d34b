import Idl.Proofs.Analysis.LocalNames
import Idl.Proofs.Analysis.Settings
import Idl.Proofs.Analysis.Tables
import Idl.Proofs.Descriptor.RoundTrip

/-!
# Printed declarations are checked again

What is read from the text of a program passes the checks that the program has passed, and declares
the same names.  So it can be bound like the program, where its type names are read as type names.
-/

namespace Idl

open List

variable {field : Field} {original read : Schema} {options : OptionsDesc}
  {messages messages' : List Message} {P : TypeName → Prop}

/-! ## Declarations at a path -/

namespace Schema

variable {how how' : Redraw} {schema schema' : Schema}

/-- Where names are kept, declarations that are redrawn alike have the same names. -/
theorem typeName?_of_redraw
    (hhow : how.KeepsNames) (hhow' : how'.KeepsNames)
    (henums : schema'.enums.map how'.enum = schema.enums.map how.enum)
    (h : schema'.messages.map (·.redraw how') = schema.messages.map (·.redraw how))
    (path : TypePath) : schema'.typeName? path = schema.typeName? path := by
  cases path with
  | message path =>
    have hnames := congrArg (Option.map fun m : Message => m.name.value) (message?_of_redraw h path)
    simp only [Option.map_map, Function.comp_def, Message.name_redraw, hhow.name,
      hhow'.name] at hnames
    rw [typeName?_message, typeName?_message, hnames]
  | enum path =>
    have hnames := congrArg (Option.map fun enum : EnumDef => enum.name.value)
      (enum?_of_redraw henums h path)
    simp only [Option.map_map, Function.comp_def, hhow.enum, hhow'.enum] at hnames
    rw [typeName?_enum, typeName?_enum, hnames]

end Schema

/-! ## Checks -/

theorem Schema.checkImports_eq_ok_iff {schema : Schema} :
    schema.checkImports = .ok () ↔ (schema.imports.map (·.file.value)).Nodup ∧
      (schema.imports.filterMap fun item => item.localName.map (·.value)).Nodup := by
  have hfrom : ∀ (files names : Sites String) (imports : List Import),
      checkImportsFrom files names imports = .ok () ↔
        files.Admits (imports.map (·.file.value)) ∧
          names.Admits (imports.filterMap fun item => item.localName.map (·.value)) := by
    intro files names imports
    induction imports generalizing files names with
    | nil => simp [checkImportsFrom, Sites.admits_nil]
    | cons item imports ih =>
      rw [checkImportsFrom, Sites.insert_bind_eq_ok_iff, map_cons,
        Sites.admits_cons_iff item.file.span]
      cases hlocal : item.localName with
      | none =>
        simp only [ih, filterMap_cons, hlocal, Option.map_none]
        tauto
      | some name =>
        simp only [Sites.insert_bind_eq_ok_iff, ih, filterMap_cons, hlocal, Option.map_some,
          Sites.admits_cons_iff name.span]
        tauto
  rw [checkImports, hfrom, Sites.empty_admits_iff, Sites.empty_admits_iff]

theorem EnumDef.Distinct.of_bare
    {enum enum' : EnumDef} (h : enum.Distinct) (heq : enum'.bare = enum.reread) :
    enum'.Distinct := by
  have hvalues : enum'.values.map (·.bare) = enum.values.map (·.bare) := congrArg EnumDef.values heq
  have hoptions : enum'.options = [] := map_eq_nil_iff.1 (congrArg EnumDef.options heq)
  have hnames : enum'.values.map (·.name.value) = enum.values.map (·.name.value) := by
    simpa [EnumValue.bare, Located.unplaced, Function.comp_def] using
      congrArg (List.map fun value : EnumValue => value.name.value) hvalues
  have hnumbers : enum'.values.map (·.number) = enum.values.map (·.number) := by
    simpa [EnumValue.bare, Function.comp_def] using
      congrArg (List.map fun value : EnumValue => value.number) hvalues
  refine ⟨hnames ▸ h.names, hnumbers ▸ h.numbers, ?_⟩
  rw [hoptions]
  exact nodup_nil

theorem Field.distinct_of_bare {field' : Field} (heq : field'.bare = field.reread) :
    OptionDecl.Distinct field'.options := by
  have hoptions : field'.options.map (·.bare) = field.spelling.hints.eraseDups.map
      fun hint => .plain ⟨hint, default⟩ (some (.int 1)) := congrArg Field.options heq
  have hkeys : field'.options.map (·.key.value) = field.spelling.hints.eraseDups := by
    simpa [OptionDecl.bare, OptionDecl.plain, Located.unplaced, Function.comp_def] using
      congrArg (List.map fun option : OptionDecl => option.key.value) hoptions
  rw [OptionDecl.Distinct, hkeys]
  exact nodup_eraseDups _

theorem Message.Distinct.of_bare
    {m m' : Message} (h : m.Distinct) (heq : m'.redraw .bare = m.redraw .reread) : m'.Distinct := by
  rw [redraw_eq, redraw_eq] at heq
  have hfields : m'.fields.map (·.bare) = m.fields.map (·.reread) := congrArg Message.fields heq
  have hoptions : m'.options = [] := map_eq_nil_iff.1 (congrArg Message.options heq)
  have hnames : m'.fields.map (·.name.value) = m.fields.map (·.name.value) := by
    simpa [Field.bare, Field.reread, Located.unplaced, Function.comp_def] using
      congrArg (List.map fun field : Field => field.name.value) hfields
  have htags : m'.fields.map (·.tag.value) = m.fields.map (·.tag.value) := by
    simpa [Field.bare, Field.reread, Located.unplaced, Function.comp_def] using
      congrArg (List.map fun field : Field => field.tag.value) hfields
  refine ⟨hnames ▸ h.names, htags ▸ h.tags, ?_, fun field' hfield' => ?_⟩
  · rw [hoptions]
    exact nodup_nil
  · obtain ⟨field, -, hfield⟩ := mem_map.1 (hfields ▸ mem_map_of_mem hfield')
    exact Field.distinct_of_bare hfield.symm

/-! ## Schemas -/

/-- What is read says again what the original says, as far as that is printed. -/
structure Schema.Restates (original read : Schema) : Prop where
  package : read.package.name.value = original.package.name.value
  imports : read.imports.map (·.bare) = original.imports.map (·.reread)
  enums : read.enums.map (·.bare) = original.enums.map (·.reread)
  messages : read.messages.map (·.redraw .bare) = original.messages.map (·.redraw .reread)
  services : read.services = []
  projects : read.projects = []

theorem Schema.distinct_options_of_bare (h : read.bare = original.reread options) :
    OptionDecl.Distinct read.options := by
  have hoptions : read.options.map (·.bare) = Protobuf.syntaxOption ::
      ((Proto.goPackage? options).map Protobuf.goPackageOption).toList := congrArg Schema.options h
  have hkeys := congrArg (List.map fun option : OptionDecl => option.key.value) hoptions
  rw [map_map] at hkeys
  have hsame : read.options.map (·.key.value) =
      read.options.map ((fun option : OptionDecl => option.key.value) ∘ OptionDecl.bare) := rfl
  rw [OptionDecl.Distinct, hsame, hkeys]
  cases Proto.goPackage? options with
  | none => exact nodup_singleton _
  | some package =>
    have hne : ["proto.syntax", "proto.gopkg"].Nodup := by decide
    exact hne

namespace Schema.Restates

variable {read original : Schema}

theorem of_bare (h : read.bare = original.reread options) (settings : List OptionDecl) :
    original.Restates { read with options := settings } where
  package := (names_of_bare h).1
  imports := congrArg Schema.imports h
  enums := congrArg Schema.enums h
  messages := congrArg Schema.messages h
  services := congrArg Schema.services h
  projects := congrArg Schema.projects h

theorem of_written
    {other : Schema} (h : original.Restates read) (hwritten : other.written = original.written) :
    other.Restates read := by
  have hreread : other.reread [] = original.reread [] := by
    rw [← reread_written, hwritten, reread_written]
  have hpackage : other.written.package = original.written.package := by rw [hwritten]
  exact {
    package := h.package.trans
      (congrArg (fun package : Package => package.name.value) hpackage).symm
    imports := h.imports.trans (congrArg Schema.imports hreread).symm
    enums := h.enums.trans (congrArg Schema.enums hreread).symm
    messages := h.messages.trans (congrArg Schema.messages hreread).symm
    services := h.services
    projects := h.projects }

theorem typeName?_eq (h : original.Restates read) (path : TypePath) :
    read.typeName? path = original.typeName? path := by
  have henums : read.enums.map Redraw.bare.enum = original.enums.map Redraw.reread.enum := h.enums
  exact typeName?_of_redraw Redraw.keepsNames_reread Redraw.keepsNames_bare henums h.messages path

/-- Imports that are read again name the outputs of the files, and have no local names. -/
theorem forall₂_imports (h : original.Restates read) :
    List.Forall₂ (fun item item' : Import => item'.localName = none ∧
      item'.file.value = Proto.fileName item.file.value) original.imports read.imports := by
  have hsame : List.Forall₂ (· = ·) (original.imports.map (·.reread))
      (read.imports.map (·.bare)) := by
    rw [forall₂_eq_eq_eq]
    exact h.imports.symm
  rw [forall₂_map_left_iff, forall₂_map_right_iff] at hsame
  refine hsame.imp fun item item' heq => ⟨?_, ?_⟩
  · have hlocal : item'.localName.map (·.unplaced) = none := congrArg Import.localName heq.symm
    exact Option.map_eq_none_iff.1 hlocal
  · have hfile : item'.bare.file.value = item.reread.file.value := by rw [heq]
    simpa only [Import.bare, Import.reread, Located.unplaced] using hfile

theorem checkImports_eq_ok_iff (h : original.Restates read) :
    read.checkImports = .ok () ↔
      (original.imports.map fun item => Proto.fileName item.file.value).Nodup := by
  have himports := h.forall₂_imports
  have hnames : read.imports.map (·.file.value) =
      original.imports.map fun item => Proto.fileName item.file.value := by
    have hfiles := congrArg (List.map fun item : Import => item.file.value) h.imports
    simpa only [map_map, Function.comp_def, Import.bare, Import.reread, Located.unplaced] using
      hfiles
  have hlocal : read.imports.filterMap (fun item => item.localName.map (·.value)) = [] := by
    refine filterMap_eq_nil_iff.2 fun item' hitem' => ?_
    obtain ⟨item, -, hitem⟩ := exists_of_forall₂ himports item' hitem'
    rw [hitem.1, Option.map_none]
  rw [Schema.checkImports_eq_ok_iff, hnames, hlocal]
  exact and_iff_left nodup_nil

/-- What is read again has to be distinct where it had to be before, and is. -/
theorem distinct
    (h : original.Restates read) {useIds : Bool} (hdistinct : original.Distinct useIds)
    (hoptions : OptionDecl.Distinct read.options) (useIds' : Bool) : read.Distinct useIds' := by
  have henums : read.enums.map Redraw.bare.enum = original.enums.map Redraw.reread.enum := h.enums
  constructor
  · exact hoptions
  · intro path path' name hname hname'
    rw [h.typeName?_eq] at hname hname'
    exact hdistinct.types path path' name hname hname'
  · simp [h.services]
  · simp [h.services]
  · intro path enum' henum'
    have hat := enum?_of_redraw henums h.messages path
    rw [henum', Option.map_some] at hat
    obtain ⟨enum, henum, heq⟩ := Option.map_eq_some_iff.1 hat.symm
    exact (hdistinct.enums path enum henum).of_bare heq.symm
  · intro path m' hm'
    have hat := message?_of_redraw h.messages path
    rw [hm', Option.map_some] at hat
    obtain ⟨m, hm, heq⟩ := Option.map_eq_some_iff.1 hat.symm
    exact (hdistinct.messages path m hm).of_bare heq.symm
  · simp [h.services]
  · intro message hmessage
    obtain ⟨service, hservice, -⟩ := mem_methodMessages_iff.1 hmessage
    simp [h.services] at hservice
  · simp [h.projects]

end Schema.Restates

/-! ## Type names -/

/-- The type name is read as a type name again, and not as a scalar. -/
def TypeName.Custom (type : TypeName) : Prop := Protobuf.scalars.lookup type.name.value = none

instance : DecidablePred TypeName.Custom :=
  fun type => inferInstanceAs (Decidable (Protobuf.scalars.lookup type.name.value = none))

theorem Field.reference_bare (h : field.Each TypeName.Unbound) (ρ : ProgramId → ProgramId) :
    field.bare.reference ρ = field.reference fun id => id := by
  have htype : field.type.bare.reference ρ = field.type.reference fun id => id := by
    unfold FieldType.bare FieldType.reference
    rw [FieldType.custom?_mapCustom]
    cases hcustom : field.type.custom? with
    | none => rfl
    | some type =>
      have hunbound : type.target = none := h type hcustom
      simp only [Option.map_some, TypeName.bare, TypeName.unbound, TypeName.reference, hunbound]
      rfl
  unfold Field.reference
  rw [← htype]
  rfl

/-- A printed field type has the type name that it had, unless that is read as a scalar. -/
theorem FieldType.custom?_reread (type : FieldType) (signed fixed : Bool) :
    (type.reread signed fixed).custom? =
      (type.custom?.filter fun name => decide name.Custom).map TypeName.bare := by
  have helem : ∀ elem : ElemType, (ElemType.named (elem.printed signed fixed)).custom? =
      (elem.custom?.filter fun name => decide name.Custom).map TypeName.bare := by
    intro elem
    cases elem with
    | base base => exact congrArg ElemType.custom? (BaseType.named_scalar signed fixed base)
    | custom name =>
      have hnamed : ElemType.named (ElemType.printed signed fixed (.custom name)) =
          ElemType.named name.name.value := rfl
      rw [hnamed, ElemType.named, ElemType.custom?, Option.filter_some]
      by_cases hcustom : name.Custom
      · have hlookup : Protobuf.scalars.lookup name.name.value = none := hcustom
        rw [hlookup, decide_eq_true hcustom]
        rfl
      · obtain ⟨scalar, hlookup⟩ := Option.ne_none_iff_exists'.1 hcustom
        rw [hlookup, decide_eq_false hcustom]
        rfl
  cases type with
  | single elem | list elem | map key elem => exact helem elem

theorem Field.reference_reread
    (h : field.Each fun type => type.Unbound ∧ type.Custom) (ρ : ProgramId → ProgramId) :
    field.reread.reference ρ = field.reference ρ := by
  have htype : ∀ signed fixed, (field.type.reread signed fixed).reference ρ =
      field.type.reference ρ := by
    intro signed fixed
    unfold FieldType.reference
    rw [field.type.custom?_reread signed fixed]
    cases hold : field.type.custom? with
    | none => rfl
    | some type =>
      obtain ⟨hunbound, hcustom⟩ := h type hold
      have hnone : type.target = none := hunbound
      rw [Option.filter_some, decide_eq_true hcustom]
      simp only [TypeName.reference, hnone]
      rfl
  unfold Field.reference
  rw [← htype]
  rfl

/-- Messages that are read again have the names that were printed, and type names that stand for
nothing yet. -/
theorem Schema.Restates.references_eq
    (h : original.Restates read) (hread : ∀ m ∈ read.messages, m.Each TypeName.Unbound)
    (horiginal : ∀ m ∈ original.messages, m.Each fun type => type.Unbound ∧ type.Custom)
    (ρ : ProgramId → ProgramId) :
    read.messages.map (·.redraw (.references fun id => id)) =
      original.messages.map (·.redraw (.references ρ)) :=
  calc read.messages.map (·.redraw (.references fun id => id))
      = read.messages.map (·.redraw (Redraw.bare.andThen (.references ρ))) := by
        refine map_congr_left fun m hm => ?_
        exact Message.redraw_congr rfl (fun field hfield => (Field.reference_bare hfield ρ).symm)
          (hread m hm)
    _ = original.messages.map (·.redraw (Redraw.reread.andThen (.references ρ))) :=
        Message.map_redraw_andThen (.references ρ) h.messages
    _ = original.messages.map (·.redraw (.references ρ)) := by
        refine map_congr_left fun m hm => ?_
        exact Message.redraw_congr rfl (fun field hfield => Field.reference_reread hfield ρ)
          (horiginal m hm)

theorem Field.bare_unbind (field : Field) : field.unbind.bare = field.bare := by
  obtain ⟨name, tag, type, options, doc⟩ := field
  rcases type with (e | e | ⟨key, e⟩) <;> cases e <;> rfl

theorem Message.map_redraw_of_unbind
    {how : Redraw} (hfield : ∀ field : Field, how.field field.unbind = how.field field)
    (h : messages'.map (·.unbind) = messages.map (·.unbind)) :
    messages'.map (·.redraw how) = messages.map (·.redraw how) := by
  have hredrawn := congrArg (List.map (·.redraw how)) h
  simpa only [map_map, Function.comp_def, redraw_unbind hfield] using hredrawn

/-- What does not depend on bindings is true of the type names of a message, however they are
bound. -/
theorem Message.each_unbind_iff (hP : ∀ type : TypeName, P type.unbind ↔ P type) (m : Message) :
    m.unbind.Each P ↔ m.Each P := by
  have hfield : ∀ field : Field, field.unbind.Each P ↔ field.Each P := by
    intro field
    unfold Field.Each Field.unbind
    rw [FieldType.custom?_mapCustom]
    simp only [Option.map_eq_some_iff, forall_exists_index, and_imp, forall_apply_eq_imp_iff₂, hP]
  induction m using induction_nested with
  | h m ih =>
    rw [each_iff, each_iff (m := m), unbind_eq]
    simp only [forall_mem_map, hfield]
    exact and_congr_right fun _ => forall₂_congr ih

/-- So it is true of all messages that differ in their bindings only. -/
theorem Message.each_of_unbind
    (hP : ∀ type : TypeName, P type.unbind ↔ P type)
    (hsame : messages'.map (·.unbind) = messages.map (·.unbind)) (h : ∀ m ∈ messages, m.Each P) :
    ∀ m ∈ messages', m.Each P := by
  have hall : ∀ messages : List Message, (∀ m ∈ messages.map (·.unbind), m.Each P) ↔
      ∀ m ∈ messages, m.Each P := by
    intro messages
    simp only [forall_mem_map, each_unbind_iff hP]
  rw [← hall, hsame, hall]
  exact h

/-! ## Programs -/

namespace Program

variable {program program' : Program}

/-- Programs with tables of the same declarations answer to the same names. -/
theorem mirrors_of_tabulated
    (h : program.Tabulated) (h' : program'.Tabulated)
    (hpackage : program'.package = program.package)
    (hnames : ∀ path, program'.schema.typeName? path = program.schema.typeName? path) :
    program.Mirrors program' := by
  have hmessages : ∀ name,
      program'.scope.messages.lookup name = program.scope.messages.lookup name := by
    intro name
    ext path
    rw [h.messages.lookup, h'.messages.lookup, ← Schema.typeName?_message, hnames,
      Schema.typeName?_message]
  have henums : ∀ name, program'.scope.enums.lookup name = program.scope.enums.lookup name := by
    intro name
    ext path
    rw [h.enums.lookup, h'.enums.lookup, ← Schema.typeName?_enum, hnames, Schema.typeName?_enum]
  refine ⟨hpackage, fun id name => ?_⟩
  rw [Scope.find?, Scope.find?, Scope.findMessage?, Scope.findMessage?, hmessages, henums]

/-- The second program was read and says again what the first says. -/
structure Retells (program copy : Program) : Prop where
  restates : program.schema.Restates copy.schema
  mirrors : program.Mirrors copy
  fresh : copy.schema.Fresh
  unlinked : copy.references = none

namespace Retells

variable {copy : Program}

theorem of_file (h : program.Retells copy) (file : String) : program.Retells { copy with file } :=
  ⟨h.restates, ⟨h.mirrors.package, h.mirrors.find⟩, h.fresh, h.unlinked⟩

theorem restates_unnamed (h : program.Retells copy) :
    program.unnamed.schema.Restates copy.schema where
  package := h.restates.package
  imports := by
    rw [h.restates.imports]
    simp only [unnamed, map_map]
    rfl
  enums := h.restates.enums
  messages := by
    rw [h.restates.messages]
    simp only [unnamed, map_map, Function.comp_def, Message.redraw_reread_unbind]
  services := h.restates.services
  projects := h.restates.projects

/-- What retells a program has the names that are left without local names, if imports are bound
alike. -/
theorem copies
    (h : program.Retells copy) (hcustom : ∀ m ∈ program.schema.messages, m.Each TypeName.Custom)
    {ρ : ProgramId → ProgramId} {target : String → Option ProgramId}
    (htarget : ∀ item ∈ program.schema.imports,
      target (Proto.fileName item.file.value) = item.target.map ρ) :
    Copies ρ program.unnamed (copy.bindTo target) where
  mirrors := ⟨h.mirrors.package, h.mirrors.find⟩
  imports := by
    have himports : List.Forall₂ (fun item item' : Import => item ∈ program.schema.imports ∧
        item'.localName = none ∧ item'.file.value = Proto.fileName item.file.value)
        program.schema.imports copy.schema.imports :=
      (forall₂_and_left _ _).2 ⟨fun item hitem => hitem, h.restates.forall₂_imports⟩
    simp only [bindTo, unnamed, forall₂_map_left_iff, forall₂_map_right_iff]
    refine himports.imp fun item item' hitem => ⟨hitem.2.1, ?_⟩
    dsimp only
    rw [hitem.2.2, htarget item hitem.1]
    rfl
  services := h.restates.services
  messages := by
    refine h.restates_unnamed.references_eq h.fresh.messages (fun m hm => ?_) ρ
    obtain ⟨m, hmem, rfl⟩ := mem_map.1 hm
    have hcustom' : m.unbind.Each TypeName.Custom :=
      (Message.each_unbind_iff (fun type => Iff.rfl) m).2 (hcustom m hmem)
    exact fun path sub hsub field hfield type htype =>
      ⟨m.each_unbound_unbind path sub hsub field hfield type htype,
        hcustom' path sub hsub field hfield type htype⟩
  references := rfl
  references' := h.unlinked

end Retells

end Program

theorem Schema.custom_of_bare
    (h : read.messages.map (·.redraw .bare) = original.messages.map (·.redraw .reread))
    (hfields : ∀ path index field type, original.field? path index = some field →
      field.type.custom? = some type →
      ∃ field', read.field? path index = some field' ∧ field'.type.custom?.isSome) :
    ∀ m ∈ original.messages, m.Each TypeName.Custom := by
  refine forall_message?_iff.1 fun path m hm field hfield type htype => ?_
  obtain ⟨index, hindex⟩ := mem_iff_getElem?.1 hfield
  have hold : original.field? path index =
      some field := by rw [field?, hm, Option.bind_some, hindex]
  obtain ⟨field', hfield', hsome⟩ := hfields path index field type hold htype
  have hsame := field?_of_redraw h path index
  rw [hold, hfield'] at hsame
  have htypes : field'.type.bare.custom? = field.reread.type.custom? :=
    congrArg (fun field : Field => field.type.custom?) (Option.some.inj hsame)
  rw [FieldType.bare, FieldType.custom?_mapCustom, Field.reread, FieldType.custom?_reread, htype,
    Option.filter_some] at htypes
  by_contra hcustom
  rw [decide_eq_false hcustom] at htypes
  rw [Option.map_eq_none_iff.1 htypes] at hsome
  cases hsome

end Idl

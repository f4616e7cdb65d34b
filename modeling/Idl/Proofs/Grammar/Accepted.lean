import Idl.Proofs.Grammar.WellFormed

/-!
# Accepted texts

Comments are attached to a schema after it was read, and they change nothing that the grammars
check.  So a schema that was read from a text is as well formed as what its grammar yields.
-/

namespace Idl

open Idl.Parser List

/-! ## Relabelled declarations -/

section Relabelled

variable {how : Relabel}

theorem FieldType.relabel_eq_single_custom_iff {type : FieldType} {name : TypeName} :
    type.relabel how = .single (.custom name) ↔
      ∃ name', type = .single (.custom name') ∧ name'.relabel how = name := by
  cases type with
  | single elem => cases elem <;> simp [relabel, mapCustom, ElemType.mapCustom]
  | list elem | map key elem => simp [relabel, mapCustom]

namespace Native

theorem keyedOptions_relabel_iff (options : List OptionDecl) :
    KeyedOptions (options.map (·.relabel how)) ↔ KeyedOptions options :=
  forall_mem_map

theorem formedEnum_relabel_iff (enum : EnumDef) :
    FormedEnum (enum.relabel how) ↔ FormedEnum enum := by
  simp only [formedEnum_iff, EnumDef.relabel, forall_mem_map, keyedOptions_relabel_iff]
  rfl

theorem formedFieldType_relabel_iff (type : FieldType) :
    FormedFieldType (type.relabel how) ↔ FormedFieldType type := by
  simp only [formedFieldType_iff, FieldType.custom?_relabel, Option.map_eq_some_iff,
    forall_exists_index, and_imp, forall_apply_eq_imp_iff₂]
  refine and_congr ?_ Iff.rfl
  cases type <;> simp [FieldType.relabel, FieldType.mapCustom]

theorem formedField_relabel_iff (field : Field) :
    FormedField (field.relabel how) ↔ FormedField field := by
  simp only [formedField_iff, Field.relabel, formedFieldType_relabel_iff, keyedOptions_relabel_iff]
  rfl

theorem formedMessage_relabel_iff (m : Message) :
    FormedMessage (m.relabel how) ↔ FormedMessage m := by
  rw [Message.relabel_eq]
  simp only [formedMessage_iff, forall_mem_map, formedField_relabel_iff,
    formedEnum_relabel_iff, keyedOptions_relabel_iff]
  rfl

theorem formedMethodMessage_relabel_iff (fieldName : String) (message : MethodMessage) :
    FormedMethodMessage fieldName (message.relabel how) ↔
      FormedMethodMessage fieldName message := by
  cases message with
  | stub name target => constructor <;> rintro ⟨_, _, _, heq, _⟩ <;> cases heq
  | inline m =>
    simp only [MethodMessage.relabel, Message.relabel_eq how m]
    constructor
    · rintro ⟨_, _, _, ⟨⟩, hfields, hmessages, henums, hoptions, hname, htag, hkeys, htype, hsame,
        hvoid, hformed⟩
      obtain ⟨field, hfield, rfl⟩ := map_eq_singleton_iff.1 hfields
      obtain ⟨type, hwritten, rfl⟩ := FieldType.relabel_eq_single_custom_iff.1 htype
      exact ⟨m, field, type, rfl, hfield, map_eq_nil_iff.1 hmessages,
        map_eq_nil_iff.1 henums, map_eq_nil_iff.1 hoptions, hname, htag,
        map_eq_nil_iff.1 hkeys, hwritten, hsame, hvoid, hformed⟩
    · rintro ⟨_, field, type, ⟨⟩, hfields, hmessages, henums, hoptions, hname, htag, hkeys, htype,
        hsame, hvoid, hformed⟩
      exact ⟨_, field.relabel how, type.relabel how, rfl, by rw [hfields]; rfl,
        by rw [hmessages]; rfl, by rw [henums]; rfl, by rw [hoptions]; rfl, hname, htag,
        map_eq_nil_iff.2 hkeys, FieldType.relabel_eq_single_custom_iff.2 ⟨type, htype, rfl⟩,
        hsame, hvoid, hformed⟩

theorem formedMethod_relabel_iff (config : ParseConfig) (method : Method) :
    FormedMethod config (method.relabel how) ↔ FormedMethod config method := by
  simp only [formedMethod_iff, Method.relabel, Option.map_eq_some_iff, forall_exists_index,
    and_imp, forall_apply_eq_imp_iff₂, formedMethodMessage_relabel_iff, Option.isSome_map,
    keyedOptions_relabel_iff]
  rfl

theorem formedService_relabel_iff (config : ParseConfig) (service : Service) :
    FormedService config (service.relabel how) ↔ FormedService config service := by
  simp only [formedService_iff, Service.relabel, forall_mem_map, formedMethod_relabel_iff,
    keyedOptions_relabel_iff]
  rfl

theorem formedAreas_relabel_iff (areas : List ProjectArea) :
    FormedAreas (areas.map (·.relabel how)) ↔ FormedAreas areas := by
  simp only [formedAreas_iff, ← map_tail, forall_mem_map, map_map,
    ProjectArea.relabel, keyedOptions_relabel_iff, ne_eq, map_eq_nil_iff]
  rfl

theorem formedProject_relabel_iff (project : Project) :
    FormedProject (project.relabel how) ↔ FormedProject project := by
  simp only [formedProject_iff, Project.relabel, formedAreas_relabel_iff]
  rfl

theorem formedSchema_relabel_iff (config : ParseConfig) (schema : Schema) :
    FormedSchema config (schema.relabel how) ↔ FormedSchema config schema := by
  simp only [formedSchema_iff, Schema.forall_message?_relabel_iff how formedMessage_relabel_iff]
  simp only [Schema.relabel, forall_mem_map, Import.relabel, Option.map_eq_some_iff,
    forall_exists_index, and_imp, forall_apply_eq_imp_iff₂, formedEnum_relabel_iff,
    formedService_relabel_iff, formedProject_relabel_iff, keyedOptions_relabel_iff]
  rfl

end Native

end Relabelled

/-! ## The protobuf dialect -/

namespace Protobuf

@[mk_iff]
structure FormedField (field : Field) : Prop where
  tag : 1 ≤ field.tag.value ∧ field.tag.value ≤ 255
  key : ∀ key elem, field.type = .map key elem → key ≠ .binary

/-- The bare name of a message. -/
def FormedMethodMessage (message : MethodMessage) : Prop :=
  ∃ name, message = .stub name none ∧ ¬BaseType.IsName name.value ∧ name.value ≠ "stream"

@[mk_iff]
structure FormedMethod (config : ParseConfig) (method : Method) : Prop where
  request : ∃ message, method.request = some message ∧ FormedMethodMessage message
  reply : ∃ message, method.reply = some message ∧ FormedMethodMessage message
  id : method.id.isSome → config.useMethodId

/-- What is true of every schema in the protobuf notation, at every depth. -/
@[mk_iff]
structure FormedSchema (config : ParseConfig) (schema : Schema) : Prop where
  fields : ∀ path m, schema.message? path = some m → ∀ field ∈ m.fields, FormedField field
  methods : ∀ service ∈ schema.services, ∀ method ∈ service.methods, FormedMethod config method

/-! ### Productions -/

variable {source : List (Located Token)} {config : ParseConfig}

theorem within_formedField : field.Within source FormedField := by
  refine (within_field (Q := fun type => ∀ key elem, type = .map key elem → key ≠ .binary) (.any _)
    fun repeated tokens found rest _ h => ?_).mono fun f hf => ⟨hf.2.1, hf.2.2.1⟩
  rintro _ _ heq rfl
  exact absurd ((around_of_fieldType h).1 _ _ heq) (by decide)

theorem within_formedMethodMessage : rpcMessage.Within source FormedMethodMessage := by
  refine .after fun name => ?_
  split
  next => exact .refuse _
  next hstream =>
    split
    next => exact .refuse _
    next hbase =>
      rw [Option.not_isSome_iff_eq_none, BaseType.ofName?_eq_none_iff] at hbase
      exact .pure ⟨name, rfl, hbase, hstream⟩

theorem within_formedMethod : (rpc config).Within source (FormedMethod config) := by
  refine .after fun _ => .commit (.after fun name => ?_)
  refine .after fun _ => within_formedMethodMessage.bind fun request hrequest => ?_
  refine .after fun _ => .after fun _ => ?_
  refine .after fun _ => within_formedMethodMessage.bind fun reply hreply => ?_
  refine .after fun _ => .after fun _ => .of_join fun id => ?_
  refine .after fun _ => .of_join fun options => ?_
  refine .after fun _ =>
    .pure ⟨⟨request, rfl, hrequest⟩, ⟨reply, rfl, hreply⟩, fun hid => ?_⟩
  by_contra hconfig
  simp [hconfig] at hid

/-- What is known of all parts in the protobuf notation as they are read. -/
def facts (config : ParseConfig) : Facts where
  name _ := True
  option _ := True
  field := FormedField
  service s := ∀ method ∈ s.methods, FormedMethod config method
  project _ := True

theorem ensures_facts (config : ParseConfig) (source : List (Located Token)) :
    Dialect.protobuf.Ensures config source (facts config) := by
  have hservice : (service config).Within source (·.Follows (facts config) (FormedMethod config)) :=
    within_service (.any _) (.any _) within_formedMethod fun m mode h =>
      ⟨h.request, h.reply, h.id⟩
  exact ⟨.any _, ⟨.any _, .all fun _ _ _ => trivial⟩, within_formedField,
    hservice.mono fun s h => h.methods, trivial, .any _, .any _⟩

theorem FormedSchema.of_follows {schema : Schema} (h : schema.Follows (facts config)) :
    FormedSchema config schema where
  fields := Schema.forall_message?_iff.2 fun m hm path sub hsub =>
    (h.messages m hm path sub hsub).fields
  methods := h.services

/-! ### Relabelled schemas -/

section Relabelled

variable {how : Relabel}

theorem formedField_relabel_iff (field : Field) :
    FormedField (field.relabel how) ↔ FormedField field := by
  simp only [formedField_iff, Field.relabel]
  refine and_congr Iff.rfl ?_
  cases field.type <;> simp [FieldType.relabel, FieldType.mapCustom]

theorem formedMethodMessage_relabel_iff (message : MethodMessage) :
    FormedMethodMessage (message.relabel how) ↔ FormedMethodMessage message := by
  cases message with
  | inline m => constructor <;> rintro ⟨_, heq, _⟩ <;> cases heq
  | stub name target =>
    constructor
    · rintro ⟨_, heq, hname⟩
      obtain ⟨rfl, rfl⟩ := MethodMessage.stub.inj heq
      exact ⟨name, rfl, hname⟩
    · rintro ⟨_, heq, hname⟩
      obtain ⟨rfl, rfl⟩ := MethodMessage.stub.inj heq
      exact ⟨name.relabel how, rfl, hname⟩

theorem formedMethod_relabel_iff (config : ParseConfig) (method : Method) :
    FormedMethod config (method.relabel how) ↔ FormedMethod config method := by
  simp only [formedMethod_iff, Method.relabel, Option.map_eq_some_iff, exists_exists_and_eq_and,
    formedMethodMessage_relabel_iff, Option.isSome_map]

theorem formedSchema_relabel_iff (config : ParseConfig) (schema : Schema) :
    FormedSchema config (schema.relabel how) ↔ FormedSchema config schema := by
  have hfields : ∀ m : Message, (∀ field ∈ (m.relabel how).fields, FormedField field) ↔
      ∀ field ∈ m.fields, FormedField field := by
    intro m
    rw [Message.relabel_eq]
    simp only [forall_mem_map, formedField_relabel_iff]
  rw [formedSchema_iff, formedSchema_iff, Schema.forall_message?_relabel_iff how
    (P := fun m => ∀ field ∈ m.fields, FormedField field) hfields]
  simp only [Schema.relabel, Service.relabel, forall_mem_map, formedMethod_relabel_iff]

end Relabelled

end Protobuf

/-! ## Texts -/

/-- What the grammar of a dialect checks. -/
def Dialect.Formed (config : ParseConfig) : Dialect → Schema → Prop
  | .native => Native.FormedSchema config
  | .protobuf => Protobuf.FormedSchema config

theorem Dialect.formed_of_build
    {dialect : Dialect} {config : ParseConfig} {tokens : List (Located Token)} {schema : Schema}
    (h : dialect.build config tokens = .ok schema) : dialect.Formed config schema := by
  cases dialect with
  | native => exact .of_follows (Dialect.follows_of_build h (Native.ensures_facts config _))
  | protobuf => exact .of_follows (Dialect.follows_of_build h (Protobuf.ensures_facts config _))

theorem Dialect.formed_relabel_iff
    (config : ParseConfig) (dialect : Dialect) (how : Relabel) (schema : Schema) :
    dialect.Formed config (schema.relabel how) ↔ dialect.Formed config schema := by
  cases dialect with
  | native => exact Native.formedSchema_relabel_iff config schema
  | protobuf => exact Protobuf.formedSchema_relabel_iff config schema

/-- Every schema that is read from a text is well formed in the sense of its dialect. -/
theorem Dialect.formed_of_parse
    {dialect : Dialect} {config : ParseConfig} {source : String} {schema : Schema}
    (h : dialect.parse config source = .ok schema) : dialect.Formed config schema := by
  obtain ⟨tokens, built, docs, -, hbuild, rfl⟩ := Dialect.exists_of_parse h
  exact (Schema.withDocs_iff (formed_relabel_iff config dialect .undocumented) built docs).2
    (formed_of_build hbuild)

/-- Options at several depths, a map to messages of an import, and a method with an id. -/
def layeredText : String :=
  "package p message m { message n { map<string, q.x> f = 255 { a.b } } } " ++
    "service s { go(m) void = 3 }"

theorem Dialect.formed_of_parse_layered :
    ∃ schema, Dialect.native.parse ⟨true⟩ layeredText = .ok schema ∧
      Native.FormedSchema ⟨true⟩ schema := by
  have hreads : (Dialect.native.parse ⟨true⟩ layeredText).isOk := by decide +kernel
  cases hparse : Dialect.native.parse ⟨true⟩ layeredText with
  | error faults => simp [hparse, Except.isOk, Except.toBool] at hreads
  | ok schema => exact ⟨schema, rfl, formed_of_parse hparse⟩

end Idl

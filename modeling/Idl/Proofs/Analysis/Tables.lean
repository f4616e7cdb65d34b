import Idl.Proofs.Analysis.Distinct
import Idl.Proofs.Grammar.Fresh

/-!
# Tables of definitions

A program that was just read passes the check of its definitions exactly if all that has to be
distinct is distinct, and then its tables name each message and each enum once, by the path that
leads to it.
-/

namespace Idl

open List

variable {config : ParseConfig} {schema : Schema} {name : String} {program : Program}

/-! ## What has to be distinct in a schema -/

/-- Whatever shares a scope is distinct: option keys of one declaration; names of messages and
enums, however deeply they are nested, and of services; members of an enum, a message or a service,
by name and by number. -/
structure Schema.Distinct (useIds : Bool) (schema : Schema) : Prop where
  options : OptionDecl.Distinct schema.options
  /-- No two messages or enums of the tree have the same name. -/
  types : ∀ path path' name, schema.typeName? path = some name →
    schema.typeName? path' = some name → path = path'
  serviceNames : (schema.services.map (·.name.value)).Nodup
  /-- No service has the name of a message or an enum. -/
  apart : ∀ service ∈ schema.services, ∀ path, schema.typeName? path ≠ some service.name.value
  enums : ∀ path enum, schema.enum? path = some enum → enum.Distinct
  messages : ∀ path message, schema.message? path = some message → message.Distinct
  services : ∀ service ∈ schema.services, service.Distinct useIds
  /-- The members of messages made up for a method are distinct too, and so on inside them. -/
  methodMessages : ∀ message, .inline message ∈ schema.methodMessages →
    ∀ path sub, message.descend path = some sub →
      sub.Distinct ∧ ∀ enum ∈ sub.enums, enum.Distinct
  areas : ∀ project ∈ schema.projects, ∀ area ∈ project.areas, OptionDecl.Distinct area.options

theorem Schema.Fresh.distinct_of_inline
    (h : schema.Fresh) {message : Message} (hmessage : .inline message ∈ schema.methodMessages)
    {path : List Nat} {sub : Message} (hsub : message.descend path = some sub) :
    sub.Distinct ∧ ∀ enum ∈ sub.enums, enum.Distinct := by
  simp only [methodMessages, mem_flatMap] at hmessage
  obtain ⟨service, hservice, method, hmethod, hmessage⟩ := hmessage
  cases h.services service hservice method hmethod _ hmessage with
  | @inline name field hoptions htype =>
    cases path with
    | nil =>
      cases hsub
      have hfields : (Message.ofStatements name [.field field]).fields = [field] := rfl
      refine ⟨⟨?_, ?_, ?_, ?_⟩, fun enum henum => absurd henum not_mem_nil⟩
      · rw [hfields]
        exact nodup_singleton _
      · rw [hfields]
        exact nodup_singleton _
      · exact nodup_nil
      · rw [hfields]
        intro other hother
        rw [mem_singleton.1 hother, hoptions]
        exact nodup_nil
    | cons i path => cases hsub

theorem Schema.Distinct.of_enter
    (hoptions : OptionDecl.Distinct schema.options)
    (henter : (Scope.empty.enter config schema.definitions).2 = none)
    (hareas : ∀ project ∈ schema.projects, ∀ area ∈ project.areas, OptionDecl.Distinct area.options)
    (hfresh : schema.Fresh) : schema.Distinct config.useMethodId := by
  obtain ⟨hnames, hmembers⟩ := Scope.enter_eq_none_iff.1 henter
  obtain ⟨htypes, hservices, hapart⟩ :=
    Schema.nodup_map_name_definitions_iff.1 (Sites.empty_admits_iff.1 hnames)
  exact {
    options := hoptions
    types := htypes
    serviceNames := hservices
    apart := hapart
    enums := fun path enum h => hmembers _ (Schema.mem_definitions_enum_iff.2 h)
    messages := fun path message h => hmembers _ (Schema.mem_definitions_message_iff.2 h)
    services := fun service h => hmembers _ (Schema.mem_definitions_service_iff.2 h)
    methodMessages := fun message h path sub hsub => hfresh.distinct_of_inline h hsub
    areas := hareas }

theorem Schema.Distinct.enter_eq_none (h : schema.Distinct config.useMethodId) :
    (Scope.empty.enter config schema.definitions).2 = none := by
  refine Scope.enter_eq_none_iff.2 ⟨?_, ?_⟩
  · exact Sites.empty_admits_iff.2
      (Schema.nodup_map_name_definitions_iff.2 ⟨h.types, h.serviceNames, h.apart⟩)
  · intro d hd
    cases d with
    | enum path body => exact h.enums path body (Schema.mem_definitions_enum_iff.1 hd)
    | message path body => exact h.messages path body (Schema.mem_definitions_message_iff.1 hd)
    | service body => exact h.services body (Schema.mem_definitions_service_iff.1 hd)

/-! ## Tables -/

/-- A table has one entry for each path with a name, under that name. -/
structure Assoc.Tabulates {π : Type} (table : Assoc String π) (nameAt : π → Option String) :
    Prop where
  names : (table.map (·.1)).Nodup
  paths : (table.map (·.2)).Nodup
  lookup : ∀ name path, table.lookup name = some path ↔ nameAt path = some name

theorem Assoc.tabulates_of_mem
    {π : Type} {table : Assoc String π} {nameAt : π → Option String}
    (hnames : (table.map (·.1)).Nodup)
    (hmem : ∀ name path, (name, path) ∈ table ↔ nameAt path = some name) :
    table.Tabulates nameAt where
  names := hnames
  paths := by
    refine (nodup_map_iff_inj_on (Nodup.of_map _ hnames)).2 ?_
    rintro ⟨name, path⟩ h ⟨name', path'⟩ h' (rfl : path = path')
    have heq := ((hmem name path).1 h).symm.trans ((hmem name' path).1 h')
    rw [Option.some.inj heq]
  lookup := fun name path => (Assoc.lookup_eq_some_iff_mem hnames).trans (hmem name path)

/-- The tables of a program name each of its messages and enums once, by the path that leads to it,
and no message like an enum. -/
structure Program.Tabulated (program : Program) : Prop where
  messages : program.scope.messages.Tabulates fun path =>
    (program.schema.message? path).map (·.name.value)
  enums : program.scope.enums.Tabulates fun path => (program.schema.enum? path).map (·.name.value)
  apart : ∀ name, name ∈ program.scope.messages.map (·.1) → name ∉ program.scope.enums.map (·.1)

namespace Definition

theorem map_messageRow?_sublist (ds : List Definition) :
    ((ds.filterMap (·.messageRow?)).map (·.1)).Sublist (ds.map (·.name.value)) := by
  induction ds with
  | nil => exact List.Sublist.slnil
  | cons d ds ih =>
    cases d with
    | message path body => exact ih.cons_cons _
    | enum path body | service body => exact ih.cons _

theorem map_enumRow?_sublist (ds : List Definition) :
    ((ds.filterMap (·.enumRow?)).map (·.1)).Sublist (ds.map (·.name.value)) := by
  induction ds with
  | nil => exact List.Sublist.slnil
  | cons d ds ih =>
    cases d with
    | enum path body => exact ih.cons_cons _
    | message path body | service body => exact ih.cons _

end Definition

namespace Schema

variable {schema : Schema}

theorem mem_messageEntries_iff {path : MessagePath} :
    (name, path) ∈ schema.definitions.filterMap (·.messageRow?) ↔
      (schema.message? path).map (·.name.value) = some name := by
  rw [mem_filterMap, Option.map_eq_some_iff]
  constructor
  · rintro ⟨d, hd, hentry⟩
    cases d with
    | message path body =>
      cases hentry
      exact ⟨body, mem_definitions_message_iff.1 hd, rfl⟩
    | _ => cases hentry
  · rintro ⟨body, hbody, rfl⟩
    exact ⟨_, mem_definitions_message_iff.2 hbody, rfl⟩

theorem mem_enumEntries_iff {path : EnumPath} :
    (name, path) ∈ schema.definitions.filterMap (·.enumRow?) ↔
      (schema.enum? path).map (·.name.value) = some name := by
  rw [mem_filterMap, Option.map_eq_some_iff]
  constructor
  · rintro ⟨d, hd, hentry⟩
    cases d with
    | enum path body =>
      cases hentry
      exact ⟨body, mem_definitions_enum_iff.1 hd, rfl⟩
    | _ => cases hentry
  · rintro ⟨body, hbody, rfl⟩
    exact ⟨_, mem_definitions_enum_iff.2 hbody, rfl⟩

end Schema

theorem Program.tabulated_of_distinct
    {useIds : Bool} (h : program.schema.Distinct useIds)
    (hscope : program.scope = program.schema.definitions.foldl Scope.extend .empty) :
    program.Tabulated := by
  have hmessages : program.scope.messages =
      program.schema.definitions.filterMap (·.messageRow?) := by
    rw [hscope, Scope.messages_foldl_extend]
    rfl
  have henums : program.scope.enums = program.schema.definitions.filterMap (·.enumRow?) := by
    rw [hscope, Scope.enums_foldl_extend]
    rfl
  have hnames : (program.schema.definitions.map (·.name.value)).Nodup :=
    Schema.nodup_map_name_definitions_iff.2 ⟨h.types, h.serviceNames, h.apart⟩
  refine ⟨?_, ?_, ?_⟩
  · rw [hmessages]
    exact Assoc.tabulates_of_mem (hnames.sublist (Definition.map_messageRow?_sublist _))
      fun name path => Schema.mem_messageEntries_iff
  · rw [henums]
    exact Assoc.tabulates_of_mem (hnames.sublist (Definition.map_enumRow?_sublist _))
      fun name path => Schema.mem_enumEntries_iff
  · rw [hmessages, henums]
    intro name hmessage henum
    obtain ⟨⟨_, path⟩, hpath, rfl⟩ := mem_map.1 hmessage
    obtain ⟨⟨_, path'⟩, hpath', rfl⟩ := mem_map.1 henum
    rw [Schema.mem_messageEntries_iff, ← Schema.typeName?_message] at hpath
    rw [Schema.mem_enumEntries_iff, ← Schema.typeName?_enum] at hpath'
    cases h.types _ _ _ hpath hpath'

/-- What passes the check of its definitions has distinct parts, and tables of them. -/
theorem Program.tabulated_of_checkDefinitions
    {file : String} (hfresh : schema.Fresh)
    (h : (Program.ofSchema file schema).checkDefinitions config = (program, none)) :
    program.schema = schema ∧ schema.Distinct config.useMethodId ∧ program.Tabulated := by
  obtain ⟨before, after, hdefinitions, hchecked, hall⟩ :=
    (Program.ofSchema file schema).exists_checkDefinitions_eq config
  obtain ⟨hoptions, henter, hareas⟩ := Program.checkDefinitions_eq_none_iff.1 (congrArg Prod.snd h)
  rw [h] at hchecked hall
  obtain rfl := hall rfl
  rw [append_nil] at hdefinitions
  have hschema : program.schema = schema := congrArg Program.schema hchecked
  have hscope : program.scope = before.foldl Scope.extend .empty :=
    congrArg Program.scope hchecked
  have hdistinct := Schema.Distinct.of_enter hoptions henter hareas hfresh
  refine ⟨hschema, hdistinct, Program.tabulated_of_distinct (hschema ▸ hdistinct) ?_⟩
  rw [hscope, hschema, ← hdefinitions]
  rfl

theorem Program.exists_checkDefinitions_of_distinct
    (config : ParseConfig) (h : schema.Distinct config.useMethodId) (file : String) :
    ∃ program, (Program.ofSchema file schema).checkDefinitions config = (program, none) := by
  have hnone : ((Program.ofSchema file schema).checkDefinitions config).2 = none :=
    Program.checkDefinitions_eq_none_iff.2 ⟨h.options, h.enter_eq_none, h.areas⟩
  exact ⟨_, Prod.ext rfl hnone⟩

/-! ## The main statement -/

/-- A program that was just read passes the check of its definitions if and only if all that has to
be distinct in it is; the check changes nothing it has read, and leaves a program that passes with a
table of its messages and one of its enums. -/
theorem Program.checkDefinitions_decides_distinct
    {dialect : Dialect} {parseConfig : ParseConfig} {source : String} {schema : Schema}
    (hparse : dialect.parse parseConfig source = .ok schema) (file : String)
    (config : ParseConfig) :
    let checked := (Program.ofSchema file schema).checkDefinitions config
    (checked.2 = none ↔ schema.Distinct config.useMethodId) ∧
      (checked.2 = none → checked.1.schema = schema ∧ checked.1.Tabulated) := by
  intro checked
  have hfresh : schema.Fresh := fresh_of_parse hparse
  have hiff : checked.2 = none ↔ schema.Distinct config.useMethodId := by
    refine Program.checkDefinitions_eq_none_iff.trans ⟨?_, ?_⟩
    · rintro ⟨hoptions, henter, hareas⟩
      exact Schema.Distinct.of_enter hoptions henter hareas hfresh
    · intro h
      exact ⟨h.options, h.enter_eq_none, h.areas⟩
  refine ⟨hiff, fun hnone => ?_⟩
  obtain ⟨before, after, hdefinitions, hchecked, hall⟩ :=
    (Program.ofSchema file schema).exists_checkDefinitions_eq config
  obtain rfl := hall hnone
  rw [append_nil] at hdefinitions
  have hschema : checked.1.schema = schema := congrArg Program.schema hchecked
  have hscope : checked.1.scope = before.foldl Scope.extend .empty :=
    congrArg Program.scope hchecked
  have hdistinct : checked.1.schema.Distinct config.useMethodId := by
    rw [hschema]
    exact hiff.1 hnone
  refine ⟨hschema, Program.tabulated_of_distinct hdistinct ?_⟩
  rw [hscope, hschema, ← hdefinitions]
  rfl

/-- Messages and enums in each other, used by a service. -/
def nestedText : String :=
  "package p enum e { a } message m { message n { enum k { a } k f = 1 } n f = 1 } " ++
    "service s { g(n) m = 1 }"

theorem Program.checkDefinitions_decides_distinct_nested :
    ∃ schema, Dialect.native.parse ⟨true⟩ nestedText = .ok schema ∧ schema.Distinct true ∧
      ((Program.ofSchema "p.wproto" schema).checkDefinitions ⟨true⟩).1.Tabulated := by
  have hpasses : ((Dialect.native.parse ⟨true⟩ nestedText).toOption.map fun schema =>
      ((Program.ofSchema "p.wproto" schema).checkDefinitions ⟨true⟩).2) = some none := by
    decide +kernel
  cases hparse : Dialect.native.parse ⟨true⟩ nestedText with
  | error faults => simp [hparse, Except.toOption] at hpasses
  | ok schema =>
    have hnone : ((Program.ofSchema "p.wproto" schema).checkDefinitions ⟨true⟩).2 = none := by
      simpa [hparse, Except.toOption] using hpasses
    obtain ⟨hiff, htables⟩ := checkDefinitions_decides_distinct hparse "p.wproto" ⟨true⟩
    exact ⟨schema, rfl, hiff.1 hnone, (htables hnone).2⟩

end Idl

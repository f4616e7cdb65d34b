import Idl.Proofs.Grammar.Places
import Idl.Proofs.Schema.Tree

/-!
# Assembled schemas

Both grammars put a schema together from names, options, enums, fields, services and projects.
Whatever is known of these as a dialect reads them in a source is known of them wherever they stand
in the schema, at every depth.  What is read has no comments yet, and its imports are bound to
nothing.
-/

namespace Idl

open Idl.Parser List

variable {name : Located String} {config : ParseConfig} {dialect : Dialect}
  {P : Located String → Prop}

/-- What is known of the parts of a schema as they are read. -/
structure Facts where
  name : Located String → Prop
  option : OptionDecl → Prop
  field : Field → Prop
  service : Service → Prop
  project : Project → Prop
  file : Located String → Prop := fun _ => True
  enum : EnumDef → Prop := fun _ => True

variable {F : Facts}

/-! ## Declarations -/

/-- An import as it is read. -/
structure Import.Follows (F : Facts) (item : Import) : Prop where
  file : F.file item.file
  localName : ∀ name, item.localName = some name → F.name name
  doc : item.doc = .none
  target : item.target = none

/-- An enum as it is read. -/
structure EnumDef.Follows (F : Facts) (enum : EnumDef) : Prop where
  whole : F.enum enum
  name : F.name enum.name
  doc : enum.doc = .none
  values : ∀ value ∈ enum.values, F.name value.name ∧ value.doc = .none
  options : ∀ option ∈ enum.options, F.option option

/-- A message as it is read, those nested in it apart. -/
structure Message.Follows (F : Facts) (m : Message) : Prop where
  name : F.name m.name
  doc : m.doc = .none
  fields : ∀ field ∈ m.fields, F.field field
  enums : ∀ enum ∈ m.enums, enum.Follows F
  options : ∀ option ∈ m.options, F.option option

/-- A schema as it is read. -/
structure Schema.Follows (F : Facts) (schema : Schema) : Prop where
  package : F.name schema.package.name
  packageDoc : schema.package.doc = .none
  imports : ∀ item ∈ schema.imports, item.Follows F
  options : ∀ option ∈ schema.options, F.option option
  enums : ∀ enum ∈ schema.enums, enum.Follows F
  messages : ∀ m ∈ schema.messages, ∀ path sub, m.descend path = some sub → sub.Follows F
  services : ∀ service ∈ schema.services, F.service service
  projects : ∀ project ∈ schema.projects, F.project project

/-! ## Statements -/

def EnumStatement.Follows (F : Facts) : EnumStatement → Prop
  | value name _ => F.name name
  | option o => F.option o

def MessageStatement.Follows (F : Facts) : MessageStatement → Prop
  | field f => F.field f
  | option o => F.option o
  | message m => ∀ path sub, m.descend path = some sub → sub.Follows F
  | enum e => e.Follows F

def Declaration.Follows (F : Facts) : Declaration → Prop
  | import_ item => item.Follows F
  | option o => F.option o
  | enum e => e.Follows F
  | message m => ∀ path sub, m.descend path = some sub → sub.Follows F
  | service s => F.service s
  | project p => F.project p

theorem EnumValue.exists_of_mem_numbered
    {previous : Option Int64} {written : List (Located String × Option Int64)} {value : EnumValue}
    (h : value ∈ numbered previous written) :
    value.doc = .none ∧ ∃ number, (value.name, number) ∈ written := by
  induction written generalizing previous with
  | nil => cases h
  | cons first written ih =>
    obtain ⟨name, number⟩ := first
    rcases mem_cons.1 h with rfl | h
    · exact ⟨rfl, number, mem_cons_self⟩
    · obtain ⟨hdoc, number, hmem⟩ := ih h
      exact ⟨hdoc, number, mem_cons_of_mem _ hmem⟩

theorem EnumDef.follows_ofStatements
    {found : List EnumStatement} (hname : F.name name) (h : ∀ s ∈ found, s.Follows F)
    (hwhole : F.enum (EnumDef.ofStatements name found)) :
    (EnumDef.ofStatements name found).Follows F := by
  refine ⟨hwhole, hname, rfl, fun value hvalue => ?_, fun o ho => ?_⟩
  · obtain ⟨hdoc, number, hmem⟩ := EnumValue.exists_of_mem_numbered hvalue
    obtain ⟨s, hs, heq⟩ := mem_filterMap.1 hmem
    cases s with
    | option o => cases heq
    | value found n =>
      cases heq
      exact ⟨h _ hs, hdoc⟩
  · obtain ⟨s, hs, heq⟩ := mem_filterMap.1 ho
    cases s <;> cases heq
    exact h _ hs

theorem Message.follows_ofStatements
    {found : List MessageStatement} (hname : F.name name) (h : ∀ s ∈ found, s.Follows F) :
    ∀ path sub, (Message.ofStatements name found).descend path = some sub → sub.Follows F := by
  refine Message.forall_descend_iff.2 ⟨⟨hname, rfl, ?_, ?_, ?_⟩, ?_⟩
  all_goals
    intro part hpart
    obtain ⟨s, hs, heq⟩ := mem_filterMap.1 hpart
    cases s <;> cases heq
    exact h _ hs

theorem Schema.follows_ofDeclarations
    {package : Located String} {found : List Declaration} (hname : F.name package)
    (h : ∀ d ∈ found, d.Follows F) : (Schema.ofDeclarations package found).Follows F := by
  refine ⟨hname, rfl, ?_, ?_, ?_, ?_, ?_, ?_⟩
  all_goals
    intro part hpart
    obtain ⟨d, hd, heq⟩ := mem_filterMap.1 hpart
    cases d <;> cases heq
    exact h _ hd

/-! ## Services -/

theorem ServiceStatement.exists_of_mem_methods
    {current : CallMode} {found : List ServiceStatement} {method : Method}
    (h : method ∈ methods current found) :
    ∃ m mode, ServiceStatement.method m ∈ found ∧ method = { m with mode } := by
  fun_induction methods current found with
  | case1 => cases h
  | case2 current mode found ih | case4 current option found ih =>
    obtain ⟨m, mode, hm, rfl⟩ := ih h
    exact ⟨m, mode, mem_cons_of_mem _ hm, rfl⟩
  | case3 current m found ih =>
    rcases mem_cons.1 h with rfl | h
    · exact ⟨m, current, mem_cons_self, rfl⟩
    · obtain ⟨m, mode, hm, rfl⟩ := ih h
      exact ⟨m, mode, mem_cons_of_mem _ hm, rfl⟩

/-- What is known of the parts of a service as they are read. -/
def ServiceStatement.Follows (F : Facts) (M : Method → Prop) : ServiceStatement → Prop
  | mode _ => True
  | method m => M m
  | option o => F.option o

/-- A service of methods that are known in any mode. -/
structure Service.Follows (F : Facts) (M : Method → Prop) (service : Service) : Prop where
  name : F.name service.name
  methods : ∀ method ∈ service.methods, M method
  options : ∀ option ∈ service.options, F.option option

theorem Service.follows_ofStatements
    {M : Method → Prop} (hmode : ∀ m mode, M m → M { m with mode }) {found : List ServiceStatement}
    (hname : F.name name) (h : ∀ s ∈ found, s.Follows F M) :
    (Service.ofStatements name found).Follows F M := by
  refine ⟨hname, fun method hmethod => ?_, fun o ho => ?_⟩
  · obtain ⟨m, mode, hm, rfl⟩ := ServiceStatement.exists_of_mem_methods hmethod
    exact hmode m mode (h _ hm)
  · obtain ⟨s, hs, heq⟩ := mem_filterMap.1 ho
    cases s <;> cases heq
    exact h _ hs

/-! ## Projects -/

def ProjectStatement.option? : ProjectStatement → Option OptionDecl
  | area _ => none
  | option o => some o

theorem Project.exists_of_mem_openArea
    {areas : List ProjectArea} {area : ProjectArea} (h : area ∈ openArea name areas) :
    area ∈ areas ∨ area = ⟨name, []⟩ := by
  unfold openArea at h
  split at h
  · exact .inl h
  · exact (mem_append.1 h).imp_right mem_singleton.1

/-- An area is one that was open before or one that is opened by its name, and its options are
among those that are read, in the same order. -/
theorem ProjectStatement.exists_of_mem_areas
    {current : Located String} {opened : List ProjectArea} {found : List ProjectStatement}
    {area : ProjectArea} (h : area ∈ areas current opened found) :
    ∃ old : ProjectArea, old.name = area.name ∧
      (old ∈ opened ∨ (old.options = [] ∧ (area.name = current ∨ .area area.name ∈ found))) ∧
      area.options.Sublist (old.options ++ found.filterMap (·.option?)) := by
  induction found generalizing current opened with
  | nil => exact ⟨area, rfl, .inl h, by simp⟩
  | cons s found ih =>
    cases s with
    | area name =>
      obtain ⟨old, hname, hold, hoptions⟩ := ih h
      refine ⟨old, hname, ?_, hoptions⟩
      rcases hold with hold | ⟨hnil, hold⟩
      · rcases Project.exists_of_mem_openArea hold with hold | rfl
        · exact .inl hold
        · exact .inr ⟨rfl, .inr (hname ▸ mem_cons_self)⟩
      · refine .inr ⟨hnil, .inr ?_⟩
        rcases hold with rfl | hold
        · exact mem_cons_self
        · exact mem_cons_of_mem _ hold
    | option o =>
      obtain ⟨old, hname, hold, hoptions⟩ := ih h
      rcases hold with hold | ⟨hnil, hold⟩
      · obtain ⟨original, horiginal, rfl⟩ := mem_map.1 hold
        have hsame : original.name = area.name := by
          rw [← hname]
          split <;> rfl
        refine ⟨original, hsame, ?_, hoptions.trans ?_⟩
        · rcases Project.exists_of_mem_openArea horiginal with horiginal | rfl
          · exact .inl horiginal
          · exact .inr ⟨rfl, .inl hsame.symm⟩
        · split
          · simp [option?]
          · exact (List.Sublist.refl _).append (sublist_cons_self _ _)
      · refine ⟨old, hname, .inr ⟨hnil, hold.imp_right (mem_cons_of_mem _)⟩,
          hoptions.trans ?_⟩
        exact (List.Sublist.refl _).append (sublist_cons_self _ _)

/-! ## The grammars -/

variable {source : List (Located Token)}

/-- What the dialect reads in the source is as known.  The version of the protobuf dialect is an
option as well. -/
structure Dialect.Ensures
    (config : ParseConfig) (dialect : Dialect) (source : List (Located Token)) (F : Facts) :
    Prop where
  name : match dialect with
    | .native => ∀ what, (Native.declaredName what).Within source F.name
    | .protobuf => identifier.Within source F.name
  option : match dialect with
    | .native => Native.option.Within source F.option
    | .protobuf => Protobuf.option.Within source F.option ∧
      Protobuf.syntaxVersion?.Within source fun found => ∀ o, found = some o → F.option o
  field : (match dialect with
    | .native => Native.field
    | .protobuf => Protobuf.field).Within source F.field
  service : (match dialect with
    | .native => Native.service config
    | .protobuf => Protobuf.service config).Within source F.service
  project : match dialect with
    | .native => Native.project.Within source F.project
    | .protobuf => True
  file : textLiteral.Within source F.file
  enum : (match dialect with
    | .native => Native.enum
    | .protobuf => Protobuf.enum).Within source F.enum

theorem within_importEnd
    (hfile : textLiteral.Within source F.file) (localName : Option (Located String))
    (h : ∀ name, localName = some name → F.name name) :
    Within source (do
      let file ← textLiteral
      terminator
      return ({ file, localName, doc := .none, target := none } : Import)) (·.Follows F) :=
  hfile.bind fun _ hfile => .after fun _ => .pure ⟨hfile, h, rfl, rfl⟩

namespace Native

variable {config : ParseConfig}

theorem within_declaredName (h : identifier.Within source P) (what : String) :
    (declaredName what).Within source P := by
  refine h.bind fun name hname => ?_
  split
  · exact .pure hname
  · exact .refuse _

theorem within_optionKey (h : identifier.Within source P) : optionKey.Within source P := by
  refine h.bind fun key hkey => ?_
  split
  · exact .pure hkey
  · exact .refuse _

theorem within_option (h : optionKey.Within source P) : option.Within source fun o => P o.key := by
  refine h.bind fun key hkey => .after fun found => ?_
  exact .of_join fun value => .after fun _ => .pure hkey

theorem within_optionBlock? {P : OptionDecl → Prop} (h : option.Within source P) :
    optionBlock?.Within source fun found => ∀ o ∈ found, P o := by
  refine .after fun opened => ?_
  split
  · refine .after fun _ => Within.bind (.collect ?_) fun options hoptions =>
      .after fun _ => .pure hoptions
    refine .after fun closed => ?_
    split
    · exact .pure fun _ heq => by cases heq
    · exact h.bind fun o ho => .pure fun _ heq => by cases heq; exact ho
  · exact .pure fun _ hmem => nomatch hmem

section Services

variable {M : Method → Prop}

theorem within_service
    (hname : ∀ what, (declaredName what).Within source F.name)
    (hoption : option.Within source F.option) (hmethod : (method config).Within source M)
    (hmode : ∀ m mode, M m → M { m with mode }) :
    (service config).Within source (·.Follows F M) := by
  refine .after fun _ => .commit ((hname _).bind fun name hname => ?_)
  refine Within.bind (P := fun found => ∀ s ∈ found, s.Follows F M) (.block ?_)
    fun found hfound => .after fun _ =>
      .pure (Service.follows_ofStatements hmode hname hfound)
  refine .after fun next => ?_
  split
  · exact .after fun _ => .after fun _ => .after fun _ =>
      .pure trivial
  · exact hmethod.bind fun m hm => .pure hm
  · exact hoption.bind fun o ho => .pure ho

end Services

variable (h : Dialect.native.Ensures config source F)

include h

theorem within_importFile : importFile.Within source (·.Follows F) := by
  refine .after fun _ => .commit (.after fun next => ?_)
  dsimp only
  split
  · refine Within.bind (P := fun localName => ∀ name, localName = some name → F.name name) ?_
      (within_importEnd h.file)
    exact Within.bind (h.name _) fun name hname => .pure fun _ heq => by cases heq; exact hname
  · refine within_importEnd h.file none ?_
    rintro _ ⟨⟩

theorem within_enumValue : enumValue.Within source (·.Follows F) := by
  refine Within.bind (h.name _) fun name hname => .after fun equals => ?_
  split
  · refine .after fun next => ?_
    dsimp only
    split
    · exact .after fun _ => .refuse_bind _ _
    · exact .after fun _ => .after fun _ => .pure hname
  · exact .after fun _ => .pure hname

theorem within_enum : enum.Within source (·.Follows F) := by
  refine (Within.and h.enum (R := fun e => F.enum e → e.Follows F) ?_).mono
    fun e he => he.2 he.1
  refine .after fun _ => .commit (Within.bind (h.name _) fun name hname => ?_)
  refine (Within.block (P := (·.Follows F)) ?_).bind fun statements hstatements =>
    .after fun _ => .pure (EnumDef.follows_ofStatements hname hstatements)
  refine .after fun next => ?_
  split
  · split
    · exact Within.bind h.option fun o ho => .pure ho
    · exact within_enumValue h
  · exact within_enumValue h

theorem within_message :
    message.Within source fun m => ∀ path sub, m.descend path = some sub → sub.Follows F := by
  refine Within.recursive (fun _ _ => inferInstance) fun nested hadvances hnested => ?_
  refine .after fun _ => .commit (Within.bind (h.name _) fun name hname => ?_)
  refine Within.bind (P := fun found => ∀ s ∈ found, s.Follows F) (.block ?_)
    fun found hfound => .after fun _ =>
      .pure (Message.follows_ofStatements hname hfound)
  refine .after fun next => ?_
  split
  · exact hnested.bind fun m hm => .pure hm
  · exact (within_enum h).bind fun e he => .pure he
  · exact Within.bind h.field fun f hf => .pure hf
  · exact Within.bind h.option fun o ho => .pure ho

theorem within_declaration : (declaration config).Within source (·.Follows F) := by
  refine .after fun next => ?_
  split
  · exact (within_importFile h).bind fun item hitem => .pure hitem
  · exact (within_enum h).bind fun e he => .pure he
  · exact (within_message h).bind fun m hm => .pure hm
  · exact Within.bind h.service fun s hs => .pure hs
  · exact Within.bind h.project fun p hp => .pure hp
  · exact Within.bind h.option fun o ho => .pure ho

theorem within_package : package.Within source F.name := by
  refine .after fun found => ?_
  dsimp only
  split
  · exact .after fun _ => (Within.commit (h.name _)).bind fun name hname =>
      .after fun _ => .pure hname
  · exact .after fun _ => .refuse_bind _ _

end Native

namespace Protobuf

variable {config : ParseConfig}

section Services

variable {M : Method → Prop}

theorem within_service
    (hname : identifier.Within source F.name) (hoption : option.Within source F.option)
    (hmethod : (rpc config).Within source M) (hmode : ∀ m mode, M m → M { m with mode }) :
    (service config).Within source (·.Follows F M) := by
  refine .after fun _ => .commit (hname.bind fun name hname => ?_)
  refine Within.bind (P := fun found => ∀ s ∈ found, s.Follows F M) (.block ?_)
    fun found hfound => .pure (Service.follows_ofStatements hmode hname hfound)
  refine .after fun next => ?_
  split
  · exact hoption.bind fun o ho => .pure ho
  · exact hmethod.bind fun m hm => .pure hm
  · exact .expected _

end Services

variable (h : Dialect.protobuf.Ensures config source F)

include h

theorem within_importFile : importFile.Within source (·.Follows F) := by
  refine .after fun _ => .commit (.after fun next => ?_)
  dsimp only
  split
  · refine Within.bind (P := fun localName => ∀ name, localName = some name → F.name name) ?_
      (within_importEnd h.file)
    exact Within.bind h.name fun name hname => .pure fun _ heq => by cases heq; exact hname
  · refine within_importEnd h.file none ?_
    rintro _ ⟨⟩

theorem within_enum : enum.Within source (·.Follows F) := by
  refine (Within.and h.enum (R := fun e => F.enum e → e.Follows F) ?_).mono
    fun e he => he.2 he.1
  refine .after fun _ => .commit (Within.bind h.name fun name hname => ?_)
  refine (Within.block (P := (·.Follows F)) ?_).bind fun statements hstatements =>
    .pure (EnumDef.follows_ofStatements hname hstatements)
  refine .after fun found => ?_
  split
  · exact Within.bind h.option.1 fun o ho => .pure ho
  · refine Within.bind h.name fun name hname => .after fun _ => .after
      fun number => .after fun bracket => ?_
    dsimp only
    split
    · exact .after fun _ => .refuse_bind _ _
    · exact .after fun _ => .pure hname

theorem within_message :
    message.Within source fun m => ∀ path sub, m.descend path = some sub → sub.Follows F := by
  refine Within.recursive (fun _ _ => inferInstance) fun nested hadvances hnested => ?_
  refine .after fun _ => .commit (Within.bind h.name fun name hname => ?_)
  refine Within.bind (P := fun found => ∀ s ∈ found, s.Follows F) (.block ?_)
    fun found hfound => .pure (Message.follows_ofStatements hname hfound)
  refine .after fun next => ?_
  split
  · exact hnested.bind fun m hm => .pure hm
  · exact (within_enum h).bind fun e he => .pure he
  · exact Within.bind h.option.1 fun o ho => .pure ho
  · exact Within.bind h.field fun f hf => .pure hf

theorem within_declaration : (declaration config).Within source (·.Follows F) := by
  refine .after fun next => ?_
  split
  · exact (within_importFile h).bind fun item hitem => .pure hitem
  · exact Within.bind h.option.1 fun o ho => .pure ho
  · exact (within_enum h).bind fun e he => .pure he
  · exact (within_message h).bind fun m hm => .pure hm
  · exact Within.bind h.service fun s hs => .pure hs
  · exact .expected _

theorem within_package : package.Within source F.name := by
  refine .after fun found => ?_
  dsimp only
  split
  · exact .after fun _ => (Within.commit h.name).bind fun name hname =>
      .after fun _ => .pure hname
  · exact .after fun _ => .refuse_bind _ _

end Protobuf

theorem Dialect.within_grammar (h : dialect.Ensures config source F) :
    (dialect.grammar config).Within source (·.Follows F) := by
  cases dialect with
  | native =>
    refine (Native.within_package h).bind fun name hname => ?_
    exact (Within.declarations (Native.within_declaration h)).bind fun found hfound =>
      .pure (Schema.follows_ofDeclarations hname hfound)
  | protobuf =>
    refine Within.bind h.option.2 fun version hversion => (Protobuf.within_package h).bind
      fun name hname => ?_
    refine (Within.declarations (Protobuf.within_declaration h)).bind fun found hfound => .pure ?_
    have hschema := Schema.follows_ofDeclarations hname hfound
    refine ⟨hschema.package, hschema.packageDoc, hschema.imports, fun o ho => ?_,
      hschema.enums, hschema.messages, hschema.services, hschema.projects⟩
    rcases mem_append.1 ho with ho | ho
    · exact hversion o (Option.mem_toList.1 ho)
    · exact hschema.options o ho

/-! ## Reading -/

/-- What a dialect ensures of its tokens is true of the schema that is read from them. -/
theorem Dialect.follows_of_build
    {tokens : List (Located Token)} {schema : Schema} (h : dialect.build config tokens = .ok schema)
    (hensures : dialect.Ensures config (significant tokens) F) : schema.Follows F := by
  obtain ⟨rest, heq⟩ := build_ok_iff.1 h
  exact Dialect.within_grammar hensures _ _ _ (suffix_refl _) heq

theorem Dialect.exists_of_parse
    {source : String} {schema : Schema} (h : dialect.parse config source = .ok schema) :
    ∃ tokens built docs, Lexer.tokenize source.toList = .ok tokens ∧
      dialect.build config tokens = .ok built ∧ schema = built.withDocs docs := by
  simp only [Dialect.parse, bind_eq_ok_iff, mapError_eq_ok_iff, pure_eq_ok_iff] at h
  obtain ⟨tokens, htokens, built, hbuild, rfl⟩ := h
  exact ⟨tokens, built, _, htokens, hbuild, rfl⟩

end Idl

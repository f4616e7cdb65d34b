import Idl.Proofs.Grammar.Lexical
import Idl.Proofs.Schema.Documented

/-!
# Names where they are written

The tokens of a text cover the characters they are spelled with, and the native grammar takes every
name, every tag and every id from one token.  So whatever is declared in a schema that was read, at
any depth, the bytes at the place of its name are the name, and the bytes at the place of its number
are a literal of that number.
-/

namespace Idl

open Idl.Parser List

/-! ## Bytes of a text -/

/-- The bytes of the text that the range covers. -/
def Span.bytes (source : String) (span : Span) : ByteArray :=
  source.toUTF8.extract span.start span.stop

theorem Span.bytes_between
    {source : String} {before text behind : List Char}
    (h : source.toList = before ++ text ++ behind) :
    (Span.between (byteSize before) (byteSize before + byteSize text)).bytes source =
      (String.ofList text).toUTF8 := by
  have hsource : source = String.ofList before ++ (String.ofList text ++ String.ofList behind) := by
    rw [← String.ofList_append, ← String.ofList_append, ← append_assoc, ← h,
      String.ofList_toList]
  have hsize : ∀ cs : List Char, byteSize cs = (String.ofList cs).toUTF8.size := fun cs =>
    (utf8ByteSize_ofList cs).symm
  have hstop : (Span.between (byteSize before) (byteSize before + byteSize text)).stop =
      byteSize before + byteSize text := Nat.max_eq_right (Nat.le_add_right _ _)
  have hmiddle : ∀ a b c : ByteArray, (a ++ (b ++ c)).extract a.size (a.size + b.size) = b := by
    intro a b c
    have hextract := ByteArray.extract_append_size_add (a := a) (b := b ++ c) (i := 0) (j := b.size)
    rw [Nat.add_zero] at hextract
    exact hextract.trans (ByteArray.extract_append_eq_left rfl)
  have hbytes : source.toUTF8 = (String.ofList before).toUTF8 ++
      ((String.ofList text).toUTF8 ++ (String.ofList behind).toUTF8) := by
    rw [hsource]
    simp only [String.toUTF8_eq_toByteArray, String.toByteArray_append]
  rw [bytes, hstop, hbytes, hsize before, hsize text]
  exact hmiddle _ _ _

/-- The name stands in the text at its place. -/
def Located.Spelled (source : String) (name : Located String) : Prop :=
  name.span.bytes source = name.value.toUTF8

/-- A literal of the number stands in the text at its place. -/
def Located.Written (source : String) (number : Located Int64) : Prop :=
  ∃ l : Lexer.Literal, l.value = number.value.toInt ∧
    number.span.bytes source = (String.ofList l.text).toUTF8

/-! ## Names of declarations -/

/-- The name of the declared type that the field is of. -/
def Field.typeNames (field : Field) : List (Located String) :=
  field.type.custom?.toList.map (·.name)

def Field.names (field : Field) : List (Located String) :=
  field.name :: field.typeNames ++ field.options.map (·.key)

def EnumDef.names (enum : EnumDef) : List (Located String) :=
  enum.name :: enum.values.map (·.name) ++ enum.options.map (·.key)

/-- The names in a message, those of nested messages apart. -/
def Message.names (m : Message) : List (Located String) :=
  m.name :: m.fields.flatMap (·.names) ++ m.enums.flatMap (·.names) ++ m.options.map (·.key)

/-- The field of a message that is made up for a method has no name in the text. -/
def MethodMessage.names : MethodMessage → List (Located String)
  | inline m => m.name :: m.fields.flatMap (·.typeNames)
  | stub name _ => [name]

def Method.names (method : Method) : List (Located String) :=
  method.name :: method.request.toList.flatMap (·.names) ++ method.reply.toList.flatMap (·.names) ++
    method.options.map (·.key)

def Service.names (service : Service) : List (Located String) :=
  service.name :: service.methods.flatMap (·.names) ++ service.options.map (·.key)

/-- The default area has no name in the text. -/
def ProjectArea.names (area : ProjectArea) : List (Located String) :=
  [area.name].filter (·.value ≠ "") ++ area.options.map (·.key)

def Project.names (project : Project) : List (Located String) :=
  project.name :: project.areas.flatMap (·.names)

/-- The names in a schema, those of messages apart. -/
def Schema.names (schema : Schema) : List (Located String) :=
  schema.package.name :: schema.imports.flatMap (·.localName.toList) ++
    schema.options.map (·.key) ++ schema.enums.flatMap (·.names) ++
    schema.services.flatMap (·.names) ++ schema.projects.flatMap (·.names)

/-- The names are spelled, and the tags and ids written, where they are said to be. -/
@[mk_iff]
structure Schema.InPlace (source : String) (schema : Schema) : Prop where
  names : ∀ name ∈ schema.names, name.Spelled source
  messages : ∀ path m, schema.message? path = some m →
    (∀ name ∈ m.names, name.Spelled source) ∧ ∀ field ∈ m.fields, field.tag.Written source
  ids : ∀ service ∈ schema.services, ∀ method ∈ service.methods, ∀ id, method.id = some id →
    id.Written source

/-! ## Productions -/

section Productions

variable {source : List (Located Token)} {N : Located String → Prop} {T : Located Int64 → Prop}
  (hN : ∀ name : Located String, ⟨.identifier name.value, name.span⟩ ∈ source → N name)
  (hT : ∀ number : Located Int64, ⟨.integer number.value, number.span⟩ ∈ source → T number)

namespace Native

include hN

theorem within_typeName :
    elemType.Within source fun found => ∀ type, found.type = .custom type →
      N type.name ∧ found.span = type.name.span := by
  intro tokens found rest htokens h type htype
  obtain ⟨hhead, hspan⟩ := name_of_elemType h htype
  exact ⟨hN _ (htokens.subset (mem_of_mem_head? hhead)), hspan⟩

theorem within_typeNames :
    fieldType.Within source fun type => ∀ custom, type.custom? = some custom → N custom.name := by
  intro tokens type rest htokens h custom hcustom
  obtain ⟨-, found, inner, after, heq, hinner, hfound, -⟩ := around_of_fieldType h
  rw [FieldType.custom?, heq] at hcustom
  exact (within_typeName hN inner found after (hinner.trans htokens) hfound custom
    (ElemType.custom?_eq_some_iff.1 hcustom)).1

theorem within_optionKeys :
    optionBlock?.Within source fun options => ∀ option ∈ options, N option.key :=
  within_optionBlock? (within_option (within_optionKey (.mono .identifier hN)))

theorem within_methodNames (fieldName role : String) :
    (methodMessage fieldName role).Within source fun found =>
      ∀ name ∈ found.toList.flatMap (·.names), N name := by
  refine (within_typeName hN).bind fun elem helem => ?_
  split
  next => exact .refuse _
  next type htype =>
    obtain ⟨hname, hspan⟩ := helem type htype
    split
    next => exact .pure (forall_mem_nil _)
    next =>
      refine .pure ?_
      rw [hspan]
      exact forall_mem_cons.2 ⟨hname, forall_mem_singleton.2 hname⟩

theorem within_projectNames :
    project.Within source fun project => ∀ name ∈ project.names, N name := by
  have hidentifier : identifier.Within source N := .mono .identifier hN
  refine .after fun _ => .commit ((within_declaredName hidentifier _).bind
    fun name hname => ?_)
  refine (Within.block (P := fun s => (∀ o, s.option? = some o → N o.key) ∧
    ∀ name, s = .area name → N name) ?_).bind fun found hfound => .after fun _ => .pure ?_
  · refine .after fun next => ?_
    split
    · exact (within_declaredName hidentifier _).bind fun area harea => .after fun _ =>
        .pure ⟨by rintro _ ⟨⟩, by rintro _ ⟨⟩; exact harea⟩
    · exact (within_option (within_optionKey hidentifier)).bind fun o ho =>
        .pure ⟨by rintro _ ⟨⟩; exact ho, by rintro _ ⟨⟩⟩
  · refine forall_mem_cons.2 ⟨hname, forall_mem_flatMap.2 fun area harea => ?_⟩
    obtain ⟨old, -, hold, hoptions⟩ := ProjectStatement.exists_of_mem_areas harea
    rcases hold with hold | ⟨hnil, hold⟩
    · cases hold
    rw [hnil, nil_append] at hoptions
    refine forall_mem_append.2 ⟨fun name hmem => ?_, forall_mem_map.2 fun o ho => ?_⟩
    · obtain ⟨hmem, hvalue⟩ := mem_filter.1 hmem
      obtain rfl := mem_singleton.1 hmem
      rcases hold with hold | hold
      · simp [hold] at hvalue
      · exact (hfound _ hold).2 _ rfl
    · obtain ⟨s, hs, heq⟩ := mem_filterMap.1 (hoptions.subset ho)
      exact (hfound s hs).1 o heq

include hT

theorem within_fieldNames :
    field.Within source fun field => (∀ name ∈ field.names, N name) ∧ T field.tag := by
  have htag : fieldTag.Within source T := fun tokens tag rest htokens h =>
    hT tag (htokens.subset ((fieldTag_ok_iff.1 h).1 ▸ mem_cons_self))
  refine (within_field (.mono .identifier hN) htag (within_typeNames hN)
    (within_optionKeys hN)).mono fun field h => ⟨?_, h.1.2.1⟩
  refine forall_mem_append.2 ⟨forall_mem_cons.2 ⟨h.1.1, ?_⟩, forall_mem_map.2 h.2⟩
  exact forall_mem_map.2 fun custom hcustom =>
    h.1.2.2.1 custom (Option.mem_toList.1 hcustom)

theorem within_methodSites (config : ParseConfig) :
    (method config).Within source fun method => (∀ name ∈ method.names, N name) ∧
      ∀ id, method.id = some id → T id := by
  have hidentifier : identifier.Within source N := .mono .identifier hN
  refine (within_declaredName hidentifier _).bind fun name hname => .commit (.after
    fun _ => .after fun closed => ?_)
  extract_lets jp
  have hjp : ∀ request : Option MethodMessage,
      (∀ name ∈ request.toList.flatMap (·.names), N name) →
      (jp request).Within source fun method => (∀ name ∈ method.names, N name) ∧
        ∀ id, method.id = some id → T id := by
    intro request hrequest
    refine .after fun _ => (within_methodNames hN _ _).bind
      fun reply hreply => .after fun equals => ?_
    refine .join (P := fun id => ∀ number, id = some number → T number)
      (Within.bind (.mono .integer hT) fun number hnumber => .pure ?_)
      (.pure (by rintro _ ⟨⟩)) fun id hid => (within_optionKeys hN).bind fun options hoptions =>
        .after fun _ => .pure ⟨?_, fun number heq => ?_⟩
    · rintro _ ⟨⟩
      exact hnumber
    · exact forall_mem_append.2 ⟨forall_mem_cons.2 ⟨hname, forall_mem_append.2
        ⟨hrequest, hreply⟩⟩, forall_mem_map.2 hoptions⟩
    · dsimp only at heq
      split at heq
      · exact hid number heq
      · cases heq
  split
  · exact hjp none (forall_mem_nil _)
  · exact (within_methodNames hN _ _).bind hjp

end Native

/-- What is known of the parts of a schema if all names and numbers are as known. -/
def Facts.inPlace (N : Located String → Prop) (T : Located Int64 → Prop) : Facts where
  name := N
  option o := N o.key
  field f := (∀ name ∈ f.names, N name) ∧ T f.tag
  service s := (∀ name ∈ s.names, N name) ∧ ∀ method ∈ s.methods, ∀ id, method.id = some id → T id
  project p := ∀ name ∈ p.names, N name

include hN hT in
theorem Native.ensures_inPlace (config : ParseConfig) :
    Dialect.native.Ensures config source (.inPlace N T) := by
  have hidentifier : identifier.Within source N := .mono .identifier hN
  have hname := within_declaredName hidentifier
  have hoption := within_option (within_optionKey hidentifier)
  have hservice : (service config).Within source (·.Follows (.inPlace N T) fun method =>
      (∀ name ∈ method.names, N name) ∧ ∀ id, method.id = some id → T id) :=
    within_service hname hoption (within_methodSites hN hT config) fun _ _ h => h
  refine ⟨hname, hoption, within_fieldNames hN hT, hservice.mono fun s h => ⟨?_, fun m hm =>
    (h.methods m hm).2⟩, within_projectNames hN, .any _, .any _⟩
  exact forall_mem_append.2 ⟨forall_mem_cons.2 ⟨h.name, forall_mem_flatMap.2
    fun m hm => (h.methods m hm).1⟩, forall_mem_map.2 h.options⟩

end Productions

/-! ## Schemas -/

section Schemas

variable {N : Located String → Prop} {T : Located Int64 → Prop}

theorem EnumDef.Follows.inPlace {enum : EnumDef} (h : enum.Follows (.inPlace N T)) :
    ∀ name ∈ enum.names, N name :=
  forall_mem_append.2 ⟨forall_mem_cons.2 ⟨h.name, forall_mem_map.2
    fun value hvalue => (h.values value hvalue).1⟩, forall_mem_map.2 h.options⟩

theorem Message.Follows.inPlace {m : Message} (h : m.Follows (.inPlace N T)) :
    (∀ name ∈ m.names, N name) ∧ ∀ field ∈ m.fields, T field.tag := by
  refine ⟨?_, fun field hfield => (h.fields field hfield).2⟩
  simp only [Message.names, forall_mem_append, forall_mem_cons, forall_mem_flatMap,
    forall_mem_map]
  exact ⟨⟨⟨h.name, fun field hfield => (h.fields field hfield).1⟩,
    fun enum henum => (h.enums enum henum).inPlace⟩, h.options⟩

theorem Schema.InPlace.of_follows
    {source : String} {schema : Schema}
    (h : schema.Follows (.inPlace (·.Spelled source) (·.Written source))) :
    schema.InPlace source where
  names := by
    simp only [Schema.names, forall_mem_append, forall_mem_cons, forall_mem_flatMap,
      forall_mem_map]
    exact ⟨⟨⟨⟨⟨h.package, fun item hitem name hname => (h.imports item hitem).localName name
      (Option.mem_toList.1 hname)⟩, h.options⟩, fun enum henum => (h.enums enum henum).inPlace⟩,
      fun service hservice => (h.services service hservice).1⟩, h.projects⟩
  messages := Schema.forall_message?_iff.2 fun m hm path sub hsub =>
    (h.messages m hm path sub hsub).inPlace
  ids service hservice := (h.services service hservice).2

end Schemas

/-! ### Comments -/

section Comments

attribute [local simp] Located.relabel_undocumented

theorem Field.typeNames_undocumented (field : Field) :
    (field.relabel .undocumented).typeNames = field.typeNames := by
  rw [typeNames, typeNames, relabel, FieldType.relabel_undocumented]

theorem Field.names_undocumented (field : Field) :
    (field.relabel .undocumented).names = field.names := by
  rw [names, names, typeNames_undocumented]
  simp [relabel, OptionDecl.relabel, Function.comp_def]

theorem EnumDef.names_undocumented (enum : EnumDef) :
    (enum.relabel .undocumented).names = enum.names := by
  simp [names, relabel, EnumValue.relabel, OptionDecl.relabel, Function.comp_def]

theorem Message.names_undocumented (m : Message) :
    (m.relabel .undocumented).names = m.names := by
  rw [relabel_eq]
  simp [names, OptionDecl.relabel, Function.comp_def, flatMap_map, Field.names_undocumented,
    EnumDef.names_undocumented]

theorem MethodMessage.names_undocumented (message : MethodMessage) :
    (message.relabel .undocumented).names = message.names := by
  cases message with
  | inline m =>
    rw [relabel, Message.relabel_eq]
    simp [names, flatMap_map, Field.typeNames_undocumented]
  | stub name target => rfl

theorem Service.names_undocumented (service : Service) :
    (service.relabel .undocumented).names = service.names := by
  simp [names, relabel, Method.names, Method.relabel, OptionDecl.relabel, Function.comp_def,
    flatMap_map, Option.toList_map, MethodMessage.names_undocumented]

theorem Project.names_undocumented (project : Project) :
    (project.relabel .undocumented).names = project.names := by
  simp [names, relabel, ProjectArea.names, ProjectArea.relabel, OptionDecl.relabel,
    Function.comp_def, flatMap_map]

theorem Schema.names_undocumented (schema : Schema) :
    (schema.relabel .undocumented).names = schema.names := by
  simp [names, relabel, Import.relabel, OptionDecl.relabel, Function.comp_def,
    flatMap_map, EnumDef.names_undocumented, Service.names_undocumented,
    Project.names_undocumented]

theorem Schema.inPlace_undocumented_iff (source : String) (schema : Schema) :
    (schema.relabel .undocumented).InPlace source ↔ schema.InPlace source := by
  have hmessage : ∀ m : Message,
      ((∀ name ∈ (m.relabel .undocumented).names, name.Spelled source) ∧
        ∀ field ∈ (m.relabel .undocumented).fields, field.tag.Written source) ↔
      (∀ name ∈ m.names, name.Spelled source) ∧ ∀ field ∈ m.fields, field.tag.Written source := by
    intro m
    rw [Message.names_undocumented, Message.relabel_eq]
    simp [Field.relabel]
  rw [inPlace_iff, inPlace_iff, names_undocumented, forall_message?_relabel_iff _ hmessage]
  simp [Schema.relabel, Service.relabel, Method.relabel]

end Comments

/-! ## Texts -/

/-- In a schema that is read from a text in the native notation, at every depth, names and numbers
are written in the text where they are said to be. -/
theorem Native.inPlace_of_parse
    {config : ParseConfig} {source : String} {schema : Schema}
    (h : Dialect.native.parse config source = .ok schema) : schema.InPlace source := by
  obtain ⟨tokens, built, docs, htokens, hbuild, rfl⟩ := Dialect.exists_of_parse h
  refine (Schema.withDocs_iff (Schema.inPlace_undocumented_iff source) built docs).2
    (.of_follows (Dialect.follows_of_build hbuild (ensures_inPlace (fun name hname => ?_)
      (fun number hnumber => ?_) config)))
  · obtain ⟨before, text, behind, hsource, ⟨rfl, -⟩, hspan⟩ :=
      Lexer.exists_spelling_of_tokenize htokens (mem_filter.1 hname).1
    have hbytes := Span.bytes_between hsource
    rwa [← hspan, String.ofList_toList] at hbytes
  · obtain ⟨before, text, behind, hsource, ⟨l, rfl, hvalue⟩, hspan⟩ :=
      Lexer.exists_spelling_of_tokenize htokens (mem_filter.1 hnumber).1
    have hbytes := Span.bytes_between hsource
    rw [← hspan] at hbytes
    exact ⟨l, hvalue, hbytes⟩

/-- A character of two bytes before a nested message, a map to a type of an import, a tag in
hexadecimal digits, an id with its sign and a named area. -/
def scatteredText : String :=
  "// é\npackage p import q \"f\"\n" ++
  "message m { message n { map<string, q.x> f = 0xFF { a.b } } }\n" ++
  "service s { go(m) void = +3 } project t { area: c.d }"

theorem Native.inPlace_of_parse_scattered :
    ∃ schema, Dialect.native.parse ⟨true⟩ scatteredText = .ok schema ∧
      (schema.message? [0, 0]).map (·.fields.map (·.tag.value)) = some [255] ∧
      schema.InPlace scatteredText := by
  obtain ⟨schema, hparse, hnested⟩ := exists_eq_ok_of_any
    (r := Dialect.native.parse ⟨true⟩ scatteredText)
    (P := fun schema => (schema.message? [0, 0]).map (·.fields.map (·.tag.value)) = some [255])
    (by decide +kernel)
  exact ⟨schema, hparse, hnested, inPlace_of_parse hparse⟩

end Idl

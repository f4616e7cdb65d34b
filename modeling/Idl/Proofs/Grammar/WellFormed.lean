import Idl.Assoc
import Idl.Proofs.Grammar.Fresh
import Idl.Proofs.Grammar.Lexical

/-!
# Well-formed schemas

What the grammars check while they read is true of every schema that they accept, at every depth:
how names, keys and tags look, what a map and a type name can be, and what stands for the request
and the reply of a method.  The main statement is about schemas that were read from a text.
-/

namespace Idl

open Idl.Parser List

variable {current : Located String}

/-! ## Names -/

/-- A letter from `a` to `z`, and then such letters, digits and underscores. -/
def LowerName : List Char → Prop
  | [] => False
  | c :: cs => ('a' ≤ c ∧ c ≤ 'z') ∧ ∀ d ∈ cs, ('a' ≤ d ∧ d ≤ 'z') ∨ ('0' ≤ d ∧ d ≤ '9') ∨ d = '_'

/-- Lower-case names with single dots between them, as many of them as said. -/
def DottedName (count : Nat → Prop) (name : String) : Prop :=
  ∃ parts : List (List Char), count parts.length ∧ (∀ part ∈ parts, LowerName part) ∧
    name.toList = ['.'].intercalate parts

theorem isLowerIdentifier_iff (cs : List Char) : isLowerIdentifier cs ↔ LowerName cs := by
  cases cs with
  | nil => simp [isLowerIdentifier, LowerName]
  | cons c cs => simp [isLowerIdentifier, LowerName, Text.isDigit, or_assoc]

theorem LowerName.dot_notMem {cs : List Char} (h : LowerName cs) : '.' ∉ cs := by
  cases cs with
  | nil => exact h.elim
  | cons c cs =>
    obtain ⟨hfirst, hmore⟩ := h
    intro hmem
    rcases mem_cons.1 hmem with rfl | hmem
    · exact absurd hfirst (by decide)
    · exact absurd (hmore '.' hmem) (by decide)

theorem all_segments_iff {count : Nat → Prop} (hcount : ¬count 0) (name : String) :
    (count (segments name).length ∧ (segments name).all isLowerIdentifier) ↔
      DottedName count name := by
  simp only [all_eq_true, isLowerIdentifier_iff]
  constructor
  · rintro ⟨hlength, hparts⟩
    exact ⟨segments name, hlength, hparts, (intercalate_splitOn '.').symm⟩
  · rintro ⟨parts, hlength, hparts, hname⟩
    have hne : parts ≠ [] := by
      rintro rfl
      exact hcount hlength
    have hsegments : segments name = parts := by
      rw [segments, hname]
      exact splitOn_intercalate '.' (fun part hpart => (hparts part hpart).dot_notMem) hne
    rw [hsegments]
    exact ⟨hlength, hparts⟩

theorem dot_mem_iff_segments (name : String) :
    name.toList.contains '.' ↔ 2 ≤ (segments name).length := by
  rw [contains_iff_mem, segments]
  constructor
  · intro hmem
    obtain ⟨before, after, hname⟩ := append_of_mem hmem
    have hsplit := splitOnP_append_cons (p := (· == '.')) before after
      (show ('.' == '.') = true from rfl)
    have hbefore := length_pos_iff.2 (splitOnP_ne_nil (· == '.') before)
    have hafter := length_pos_iff.2 (splitOnP_ne_nil (· == '.') after)
    rw [hname, hsplit, length_append]
    omega
  · intro hlength
    by_contra hmem
    have hsplit : name.toList.splitOnP (· == '.') = [name.toList] := by
      refine splitOnP_eq_singleton fun c hc => ?_
      rw [beq_eq_false_iff_ne]
      rintro rfl
      exact hmem hc
    rw [hsplit, length_singleton] at hlength
    exact absurd hlength (by decide)

theorem isOptionName_iff (name : String) : isOptionName name ↔ DottedName (2 ≤ ·) name := by
  rw [isOptionName, Bool.and_eq_true, dot_mem_iff_segments]
  exact all_segments_iff (by decide) name

/-- The name is a base type's own or one of its other spellings. -/
def BaseType.IsName (name : String) : Prop :=
  (∃ base ∈ all, base.name = name) ∨ ∃ base, (name, base) ∈ aliases

theorem BaseType.ofName?_eq_none_iff (name : String) :
    ofName? name = none ↔ ¬IsName name := by
  unfold ofName?
  cases halias : aliases.lookup name with
  | some base =>
    simp only [reduceCtorEq, false_iff, not_not]
    exact .inr ⟨base, Assoc.mem_of_lookup_eq_some halias⟩
  | none =>
    have hnotMem : ∀ base, (name, base) ∉ aliases := by
      intro base hmem
      exact Assoc.not_mem_keys_of_lookup_eq_none halias (mem_map_of_mem hmem)
    simp only [find?_eq_none, IsName, not_or, not_exists, not_and, beq_iff_eq, hnotMem,
      not_false_iff, implies_true, and_true]

/-! ## The native dialect -/

namespace Native

/-- Every option has a key of at least two parts. -/
def KeyedOptions (options : List OptionDecl) : Prop :=
  ∀ option ∈ options, DottedName (2 ≤ ·) option.key.value

@[mk_iff]
structure FormedEnum (enum : EnumDef) : Prop where
  name : LowerName enum.name.value.toList
  values : ∀ value ∈ enum.values, LowerName value.name.value.toList
  options : KeyedOptions enum.options

/-- The name of a declared type, perhaps behind that of an import. -/
def FormedType (name : String) : Prop :=
  DottedName (fun n => n = 1 ∨ n = 2) name ∧ ¬BaseType.IsName name

@[mk_iff]
structure FormedFieldType (type : FieldType) : Prop where
  key : ∀ key elem, type = .map key elem → key ≠ .binary
  name : ∀ custom, type.custom? = some custom → FormedType custom.name.value
  /-- A word that opens a container is no type of a field. -/
  words : ∀ custom, type.custom? = some custom → custom.name.value ∉ ["map", "repeated"]

@[mk_iff]
structure FormedField (field : Field) : Prop where
  tag : 1 ≤ field.tag.value ∧ field.tag.value ≤ 255
  type : FormedFieldType field.type
  options : KeyedOptions field.options

/-- A message and what is declared directly in it, nested messages apart. -/
@[mk_iff]
structure FormedMessage (m : Message) : Prop where
  name : LowerName m.name.value.toList
  fields : ∀ field ∈ m.fields, FormedField field
  enums : ∀ enum ∈ m.enums, FormedEnum enum
  options : KeyedOptions m.options

/-- A message that is made up for a method has its only field under the given name; the field is of
the type that the message is named after. -/
def FormedMethodMessage (fieldName : String) (message : MethodMessage) : Prop :=
  ∃ m field type, message = .inline m ∧ m.fields = [field] ∧ m.messages = [] ∧ m.enums = [] ∧
    m.options = [] ∧ field.name.value = fieldName ∧ field.tag.value = 1 ∧ field.options = [] ∧
    field.type = .single (.custom type) ∧ type.name.value = m.name.value ∧
    m.name.value ≠ "void" ∧ FormedType m.name.value

@[mk_iff]
structure FormedMethod (config : ParseConfig) (method : Method) : Prop where
  name : LowerName method.name.value.toList
  request : ∀ message, method.request = some message → FormedMethodMessage "rq" message
  reply : ∀ message, method.reply = some message → FormedMethodMessage "rs" message
  id : method.id.isSome → config.useMethodId
  options : KeyedOptions method.options

@[mk_iff]
structure FormedService (config : ParseConfig) (service : Service) : Prop where
  name : LowerName service.name.value.toList
  methods : ∀ method ∈ service.methods, FormedMethod config method
  options : KeyedOptions service.options

/-- The default area comes first, if there are options for it; the areas have different names. -/
@[mk_iff]
structure FormedAreas (areas : List ProjectArea) : Prop where
  names : ∀ area ∈ areas, area.name.value = "" ∨ LowerName area.name.value.toList
  distinct : (areas.map (·.name.value)).Nodup
  first : ∀ area ∈ areas.tail, area.name.value ≠ ""
  used : ∀ area ∈ areas, area.name.value = "" → area.options ≠ []
  options : ∀ area ∈ areas, KeyedOptions area.options

@[mk_iff]
structure FormedProject (project : Project) : Prop where
  name : LowerName project.name.value.toList
  areas : FormedAreas project.areas

/-- What is true of every schema in the native notation, at every depth. -/
@[mk_iff]
structure FormedSchema (config : ParseConfig) (schema : Schema) : Prop where
  package : LowerName schema.package.name.value.toList
  imports : ∀ item ∈ schema.imports, ∀ name, item.localName = some name →
    LowerName name.value.toList
  options : KeyedOptions schema.options
  enums : ∀ enum ∈ schema.enums, FormedEnum enum
  messages : ∀ path m, schema.message? path = some m → FormedMessage m
  services : ∀ service ∈ schema.services, FormedService config service
  projects : ∀ project ∈ schema.projects, FormedProject project

/-! ### Productions -/

variable {source : List (Located Token)} {config : ParseConfig}

theorem within_lowerName (what : String) :
    (declaredName what).Within source fun name => LowerName name.value.toList := by
  refine .after fun name => ?_
  split
  next hname => exact .pure ((isLowerIdentifier_iff _).1 hname)
  next => exact .refuse _

theorem within_dottedKey : optionKey.Within source fun key => DottedName (2 ≤ ·) key.value := by
  refine .after fun key => ?_
  split
  next hkey => exact .pure ((isOptionName_iff _).1 hkey)
  next => exact .refuse _

theorem within_keyedOptions : optionBlock?.Within source KeyedOptions :=
  within_optionBlock? (within_option within_dottedKey)

theorem within_formedType :
    elemType.Within source fun found => ∀ type, found.type.custom? = some type →
      FormedType type.name.value := by
  refine .after fun bracket => ?_
  split
  · refine .after fun _ => .after fun _ => .after fun _ => .pure ?_
    rintro _ ⟨⟩
  · refine .after fun name => ?_
    split
    · refine .pure ?_
      rintro _ ⟨⟩
    next hbase =>
      dsimp only
      split
      next hparts =>
        refine .pure fun type heq => ?_
        cases heq
        refine ⟨(all_segments_iff (by simp) name.value).1 ?_,
          (BaseType.ofName?_eq_none_iff _).1 hbase⟩
        simp only [Bool.and_eq_true, decide_eq_true_eq] at hparts
        have hpos := length_pos_iff.2 (splitOnP_ne_nil (· == '.') name.value.toList)
        refine ⟨?_, hparts.2⟩
        simp only [segments] at hparts ⊢
        omega
      next => exact .refuse _

theorem within_formedFieldType : fieldType.Within source FormedFieldType := by
  intro tokens type rest htokens h
  obtain ⟨hkey, found, inner, after, heq, hinner, hfound, hwords⟩ := around_of_fieldType h
  refine ⟨?_, fun name hname => ?_, fun name hname hmem => hwords _ hmem ?_⟩
  · rintro _ _ rfl rfl
    exact absurd (hkey _ _ rfl) (by decide)
  · rw [FieldType.custom?, heq] at hname
    exact within_formedType inner found after (hinner.trans htokens) hfound name hname
  · rw [FieldType.custom?, heq] at hname
    exact head_of_elemType hfound (ElemType.custom?_eq_some_iff.1 hname)

theorem within_formedField : field.Within source FormedField :=
  (within_field (.any _) .fieldTag within_formedFieldType within_keyedOptions).mono fun _ h =>
    ⟨h.1.2.1, h.1.2.2.1, h.2⟩

theorem within_formedMethodMessage (fieldName role : String) :
    (methodMessage fieldName role).Within source fun found => ∀ message, found = some message →
      FormedMethodMessage fieldName message := by
  refine within_formedType.bind fun elem helem => ?_
  split
  next => exact .refuse _
  next type htype =>
    split
    next =>
      refine .pure ?_
      rintro _ ⟨⟩
    next hvoid =>
      refine .pure fun _ heq => ?_
      cases heq
      exact ⟨_, _, type, rfl, rfl, rfl, rfl, rfl, rfl, rfl, rfl, rfl, rfl, hvoid,
        helem type (ElemType.custom?_eq_some_iff.2 htype)⟩

theorem within_formedMethod : (method config).Within source (FormedMethod config) := by
  refine (within_lowerName _).bind fun name hname => .commit (.after
    fun _ => .after fun closed => ?_)
  extract_lets jp
  have hjp : ∀ request : Option MethodMessage,
      (∀ message, request = some message → FormedMethodMessage "rq" message) →
      (jp request).Within source (FormedMethod config) := by
    intro request hrequest
    refine .after fun _ => (within_formedMethodMessage _ _).bind
      fun reply hreply => .after fun _ => .of_join fun id => ?_
    refine within_keyedOptions.bind fun options hoptions => .after fun _ => ?_
    refine .pure ⟨hname, hrequest, hreply, fun hid => ?_, hoptions⟩
    by_contra hconfig
    simp [hconfig] at hid
  split
  · exact hjp none nofun
  · exact (within_formedMethodMessage _ _).bind hjp

/-! ### Areas -/

def FormedProjectStatement : ProjectStatement → Prop
  | .area name => LowerName name.value.toList
  | .option o => DottedName (2 ≤ ·) o.key.value

theorem LowerName.ne_empty {name : String} (h : LowerName name.toList) : name ≠ "" := by
  rintro rfl
  exact h

/-- What is read so far of a project: as long as no area is named there is none but the default. -/
structure OpenAreas (current : Located String) (areas : List ProjectArea) : Prop where
  distinct : (areas.map (·.name.value)).Nodup
  first : ∀ area ∈ areas.tail, area.name.value ≠ ""
  used : ∀ area ∈ areas, area.name.value = "" → area.options ≠ []
  alone : current.value = "" → ∀ area ∈ areas, area.name.value = ""

theorem OpenAreas.names_openArea {areas : List ProjectArea} (h : OpenAreas current areas) :
    ((Project.openArea current areas).map (·.name.value)).Nodup ∧
      ∀ area ∈ (Project.openArea current areas).tail, area.name.value ≠ "" := by
  unfold Project.openArea
  split
  · exact ⟨h.distinct, h.first⟩
  next hnew =>
    have hnotMem : current.value ∉ areas.map (·.name.value) := by
      intro hmem
      obtain ⟨area, harea, heq⟩ := mem_map.1 hmem
      exact hnew (any_eq_true.2 ⟨area, harea, by simp [heq]⟩)
    constructor
    · rw [map_append, map_singleton]
      refine nodup_append.2 ⟨h.distinct, by simp, ?_⟩
      rintro _ hmem _ hlast rfl
      exact hnotMem (mem_singleton.1 hlast ▸ hmem)
    · intro area harea
      cases areas with
      | nil => cases harea
      | cons first areas =>
        rcases mem_append.1 harea with harea | harea
        · exact h.first area harea
        · -- the default area would be the first one already
          rw [mem_singleton.1 harea]
          intro hempty
          refine hnotMem (mem_map.2 ⟨first, mem_cons_self, ?_⟩)
          rw [h.alone hempty first mem_cons_self]
          exact hempty.symm

theorem OpenAreas.openArea
    {areas : List ProjectArea} (h : OpenAreas current areas) {name : Located String}
    (hname : LowerName name.value.toList) : OpenAreas name (Project.openArea name areas) := by
  have hempty : name.value ≠ "" := LowerName.ne_empty hname
  have hopen : OpenAreas name areas := ⟨h.distinct, h.first, h.used, fun h => absurd h hempty⟩
  obtain ⟨hdistinct, hfirst⟩ := hopen.names_openArea
  refine ⟨hdistinct, hfirst, fun area harea hdefault => ?_, fun h => absurd h hempty⟩
  rcases Project.exists_of_mem_openArea harea with harea | rfl
  · exact h.used area harea hdefault
  · exact absurd hdefault hempty

theorem OpenAreas.addOption
    {areas : List ProjectArea} (h : OpenAreas current areas) (option : OptionDecl) :
    OpenAreas current (Project.addOption current option areas) := by
  -- an area with one more option goes by the same name
  let add (area : ProjectArea) : ProjectArea :=
    if area.name.value = current.value then { area with options := area.options ++ [option] }
    else area
  have hname : ∀ area, (add area).name = area.name := by
    intro area
    dsimp only [add]
    split <;> rfl
  change OpenAreas current ((Project.openArea current areas).map add)
  have hnames : ((Project.openArea current areas).map add).map (·.name.value) =
      (Project.openArea current areas).map (·.name.value) := by
    rw [map_map]
    exact map_congr_left fun area _ => congrArg Located.value (hname area)
  obtain ⟨hdistinct, hfirst⟩ := h.names_openArea
  refine ⟨hnames ▸ hdistinct, ?_, ?_, ?_⟩
  · intro area harea
    rw [← map_tail] at harea
    obtain ⟨original, horiginal, rfl⟩ := mem_map.1 harea
    rw [hname]
    exact hfirst original horiginal
  · intro area harea hdefault
    obtain ⟨original, horiginal, rfl⟩ := mem_map.1 harea
    rw [hname] at hdefault
    dsimp only [add]
    split
    · simp
    next hother =>
      rcases Project.exists_of_mem_openArea horiginal with horiginal | rfl
      · exact h.used original horiginal hdefault
      · exact absurd rfl hother
  · intro hempty area harea
    obtain ⟨original, horiginal, rfl⟩ := mem_map.1 harea
    rw [hname]
    rcases Project.exists_of_mem_openArea horiginal with horiginal | rfl
    · exact h.alone hempty original horiginal
    · exact hempty

theorem OpenAreas.areas
    {opened : List ProjectArea} {found : List ProjectStatement} (h : OpenAreas current opened)
    (hfound : ∀ s ∈ found, FormedProjectStatement s) :
    ∃ last, OpenAreas last (ProjectStatement.areas current opened found) := by
  induction found generalizing current opened with
  | nil => exact ⟨current, h⟩
  | cons s found ih =>
    obtain ⟨hs, hrest⟩ := forall_mem_cons.1 hfound
    cases s with
    | area name => exact ih (h.openArea hs) hrest
    | option o => exact ih (h.addOption o) hrest

theorem formedAreas_of_statements
    {found : List ProjectStatement} (hfound : ∀ s ∈ found, FormedProjectStatement s) :
    FormedAreas (ProjectStatement.areas ⟨"", default⟩ [] found) := by
  have hnone : OpenAreas ⟨"", default⟩ [] := by constructor <;> simp
  obtain ⟨_, hopened⟩ := hnone.areas hfound
  refine ⟨fun area harea => ?_, hopened.distinct, hopened.first, hopened.used,
    fun area harea option hoption => ?_⟩
  · obtain ⟨old, -, hold, -⟩ := ProjectStatement.exists_of_mem_areas harea
    rcases hold with hold | ⟨-, hold | hold⟩
    · cases hold
    · exact .inl (by rw [hold])
    · exact .inr (hfound _ hold)
  · obtain ⟨old, -, hold, hoptions⟩ := ProjectStatement.exists_of_mem_areas harea
    rcases hold with hold | ⟨hnil, -⟩
    · cases hold
    · rw [hnil, nil_append] at hoptions
      obtain ⟨s, hs, heq⟩ := mem_filterMap.1 (hoptions.subset hoption)
      cases s <;> cases heq
      exact hfound _ hs

theorem within_formedProject : project.Within source FormedProject := by
  refine .after fun _ => .commit ((within_lowerName _).bind fun name hname => ?_)
  refine Within.bind (P := fun found => ∀ s ∈ found, FormedProjectStatement s)
    (.block ?_) fun found hfound => .after fun _ =>
      .pure ⟨hname, formedAreas_of_statements hfound⟩
  refine .after fun next => ?_
  split
  · exact (within_lowerName _).bind fun area harea => .after fun _ => .pure harea
  · exact (within_option within_dottedKey).bind fun o ho => .pure ho

/-! ### Files -/

/-- What is known of all parts in the native notation as they are read. -/
def facts (config : ParseConfig) : Facts where
  name name := LowerName name.value.toList
  option o := DottedName (2 ≤ ·) o.key.value
  field f := FormedField f ∧ f.Each TypeName.Unbound
  service s := FormedService config s ∧ s.Fresh
  project := FormedProject

theorem ensures_facts (config : ParseConfig) (source : List (Located Token)) :
    Dialect.native.Ensures config source (facts config) := by
  have hservice : (service config).Within source (·.Follows (facts config) (FormedMethod config)) :=
    within_service within_lowerName (within_option within_dottedKey) within_formedMethod
      fun m mode h => ⟨h.name, h.request, h.reply, h.id, h.options⟩
  exact ⟨within_lowerName, within_option within_dottedKey,
    within_formedField.and within_unboundField,
    (hservice.mono fun s h => ⟨h.name, h.methods, h.options⟩).and
      (Dialect.native.ensures_fresh config source).service, within_formedProject, .any _, .any _⟩

theorem FormedEnum.of_follows {enum : EnumDef} (h : enum.Follows (facts config)) :
    FormedEnum enum :=
  ⟨h.name, fun value hvalue => (h.values value hvalue).1, h.options⟩

theorem FormedMessage.of_follows {m : Message} (h : m.Follows (facts config)) : FormedMessage m :=
  ⟨h.name, fun field hfield => (h.fields field hfield).1,
    fun enum henum => .of_follows (h.enums enum henum), h.options⟩

theorem FormedSchema.of_follows {schema : Schema} (h : schema.Follows (facts config)) :
    FormedSchema config schema where
  package := h.package
  imports item hitem := (h.imports item hitem).localName
  options := h.options
  enums enum henum := .of_follows (h.enums enum henum)
  messages := Schema.forall_message?_iff.2 fun m hm path sub hsub =>
    .of_follows (h.messages m hm path sub hsub)
  services service hservice := (h.services service hservice).1
  projects := h.projects

end Native

end Idl

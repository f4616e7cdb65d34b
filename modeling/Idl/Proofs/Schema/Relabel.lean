import Idl.Grammar.Parts
import Idl.Proofs.List
import Idl.Proofs.Schema.Tree

/-!
# Relabelled declarations

Places and comments are labels of a declaration: what is declared does not depend on them.  Two
schemas are equal up to places when they become equal once all places are forgotten.  Forgetting the
labels of a declaration is the same as forgetting those of the statements it is made up of.
-/

namespace Idl

open List

/-- How places and comments are changed. -/
structure Relabel where
  span : Span → Span
  doc : Doc → Doc

namespace Relabel

def unchanged : Relabel := ⟨id, id⟩

def unplaced : Relabel := ⟨fun _ => default, id⟩

def undocumented : Relabel := ⟨id, fun _ => .none⟩

def plain : Relabel := ⟨fun _ => default, fun _ => .none⟩

end Relabel

variable (how : Relabel)

/-! ## Declarations -/

def Located.relabel {α : Type} (x : Located α) : Located α := ⟨x.value, how.span x.span⟩

@[simp] theorem Located.relabel_value {α : Type} (x : Located α) :
    (x.relabel how).value = x.value := rfl

def OptionDecl.relabel (option : OptionDecl) : OptionDecl :=
  ⟨option.key.relabel how, option.value, how.doc option.doc⟩

def EnumValue.relabel (value : EnumValue) : EnumValue :=
  ⟨value.name.relabel how, value.number, how.doc value.doc⟩

def EnumDef.relabel (enum : EnumDef) : EnumDef where
  name := enum.name.relabel how
  doc := how.doc enum.doc
  values := enum.values.map (·.relabel how)
  options := enum.options.map (·.relabel how)

def TypeName.relabel (type : TypeName) : TypeName := ⟨type.name.relabel how, type.target⟩

def ElemType.relabel (elem : ElemType) : ElemType := elem.mapCustom (·.relabel how)

def FieldType.relabel (type : FieldType) : FieldType := type.mapCustom (·.relabel how)

def Field.relabel (field : Field) : Field where
  name := field.name.relabel how
  tag := field.tag.relabel how
  type := field.type.relabel how
  options := field.options.map (·.relabel how)
  doc := how.doc field.doc

namespace Message

mutual

def relabel (how : Relabel) : Message → Message
  | ⟨name, doc, fields, messages, enums, options⟩ =>
    ⟨name.relabel how, how.doc doc, fields.map (·.relabel how), relabelAll how messages,
      enums.map (·.relabel how), options.map (·.relabel how)⟩

def relabelAll (how : Relabel) : List Message → List Message
  | [] => []
  | message :: messages => message.relabel how :: relabelAll how messages

end

theorem relabelAll_eq_map (messages : List Message) :
    relabelAll how messages = messages.map (·.relabel how) := by
  induction messages with
  | nil => rfl
  | cons message messages ih => rw [relabelAll, map_cons, ih]

theorem relabel_eq (m : Message) :
    m.relabel how =
      { name := m.name.relabel how
        doc := how.doc m.doc
        fields := m.fields.map (·.relabel how)
        messages := m.messages.map (·.relabel how)
        enums := m.enums.map (·.relabel how)
        options := m.options.map (·.relabel how) } := by
  obtain ⟨name, doc, fields, messages, enums, options⟩ := m
  rw [relabel, relabelAll_eq_map]

theorem descend_relabel (m : Message) (path : List Nat) :
    (m.relabel how).descend path = (m.descend path).map (·.relabel how) := by
  induction path generalizing m with
  | nil => rfl
  | cons i path ih =>
    rw [descend_cons, descend_cons, relabel_eq, getElem?_map]
    cases m.messages[i]? with
    | none => rfl
    | some sub => exact ih sub

/-- A property that relabelling does not change is one of the messages at all paths. -/
theorem forall_descend_relabel_iff
    {P : Message → Prop} (hP : ∀ m : Message, P (m.relabel how) ↔ P m) (m : Message) :
    (∀ path sub, (m.relabel how).descend path = some sub → P sub) ↔
      ∀ path sub, m.descend path = some sub → P sub := by
  simp only [descend_relabel, Option.map_eq_some_iff]
  constructor
  · intro h path sub hsub
    exact (hP sub).1 (h path _ ⟨sub, hsub, rfl⟩)
  · rintro h path _ ⟨sub, hsub, rfl⟩
    exact (hP sub).2 (h path sub hsub)

end Message

def MethodMessage.relabel : MethodMessage → MethodMessage
  | inline message => inline (message.relabel how)
  | stub name target => stub (name.relabel how) target

def Method.relabel (method : Method) : Method where
  name := method.name.relabel how
  doc := how.doc method.doc
  request := method.request.map (·.relabel how)
  reply := method.reply.map (·.relabel how)
  id := method.id.map (·.relabel how)
  mode := method.mode
  options := method.options.map (·.relabel how)

def Service.relabel (service : Service) : Service where
  name := service.name.relabel how
  doc := how.doc service.doc
  methods := service.methods.map (·.relabel how)
  options := service.options.map (·.relabel how)

def ProjectArea.relabel (area : ProjectArea) : ProjectArea :=
  ⟨area.name.relabel how, area.options.map (·.relabel how)⟩

def Project.relabel (project : Project) : Project where
  name := project.name.relabel how
  doc := how.doc project.doc
  areas := project.areas.map (·.relabel how)

def Import.relabel (item : Import) : Import where
  file := item.file.relabel how
  localName := item.localName.map (·.relabel how)
  doc := how.doc item.doc
  target := item.target

def Schema.relabel (schema : Schema) : Schema where
  package := ⟨schema.package.name.relabel how, how.doc schema.package.doc⟩
  imports := schema.imports.map (·.relabel how)
  options := schema.options.map (·.relabel how)
  enums := schema.enums.map (·.relabel how)
  messages := schema.messages.map (·.relabel how)
  services := schema.services.map (·.relabel how)
  projects := schema.projects.map (·.relabel how)

theorem Schema.forall_message?_relabel_iff
    {P : Message → Prop} (hP : ∀ m : Message, P (m.relabel how) ↔ P m) (schema : Schema) :
    (∀ path m, (schema.relabel how).message? path = some m → P m) ↔
      ∀ path m, schema.message? path = some m → P m := by
  simp only [Schema.forall_message?_iff, Schema.relabel, forall_mem_map,
    Message.forall_descend_relabel_iff how hP]

/-! ## Labels that stay -/

section Unchanged

@[simp] theorem Relabel.unchanged_doc (doc : Doc) : unchanged.doc doc = doc := rfl

@[simp] theorem Located.relabel_unchanged {α : Type} (x : Located α) :
    x.relabel .unchanged = x := rfl

@[simp] theorem OptionDecl.relabel_unchanged (option : OptionDecl) :
    option.relabel .unchanged = option := rfl

@[simp] theorem EnumDef.relabel_unchanged (enum : EnumDef) : enum.relabel .unchanged = enum := by
  have hvalue (value : EnumValue) : value.relabel .unchanged = value := rfl
  simp [relabel, hvalue]

@[simp] theorem Field.relabel_unchanged (field : Field) : field.relabel .unchanged = field := by
  have helem (elem : ElemType) : elem.mapCustom (·.relabel .unchanged) = elem := by
    cases elem <;> rfl
  have htype : field.type.relabel .unchanged = field.type := by
    cases htype : field.type <;> simp [FieldType.relabel, FieldType.mapCustom, helem]
  simp [relabel, htype]

@[simp] theorem Message.relabel_unchanged (m : Message) : m.relabel .unchanged = m := by
  induction m using Message.induction_nested with
  | h m ih =>
    have hmessages : m.messages.map (·.relabel .unchanged) = m.messages :=
      (map_congr_left ih).trans (map_id _)
    rw [relabel_eq, hmessages]
    cases m
    simp

@[simp] theorem Method.relabel_unchanged (method : Method) :
    method.relabel .unchanged = method := by
  have hmessage (message : MethodMessage) : message.relabel .unchanged = message := by
    cases message <;> simp [MethodMessage.relabel]
  simp [relabel, hmessage]

theorem Schema.relabel_unchanged (schema : Schema) : schema.relabel .unchanged = schema := by
  have himport (item : Import) : item.relabel .unchanged = item := by simp [Import.relabel]
  have hservice (service : Service) : service.relabel .unchanged = service := by
    simp [Service.relabel]
  have hproject (project : Project) : project.relabel .unchanged = project := by
    simp [Project.relabel, ProjectArea.relabel]
  simp [relabel, himport, hservice, hproject]

end Unchanged

/-! ## Statements -/

def MessageStatement.relabel : MessageStatement → MessageStatement
  | field f => field (f.relabel how)
  | option o => option (o.relabel how)
  | message m => message (m.relabel how)
  | enum e => enum (e.relabel how)

def EnumStatement.relabel : EnumStatement → EnumStatement
  | value name number => value (name.relabel how) number
  | option o => option (o.relabel how)

def ServiceStatement.relabel : ServiceStatement → ServiceStatement
  | mode m => mode m
  | method m => method (m.relabel how)
  | option o => option (o.relabel how)

def ProjectStatement.relabel : ProjectStatement → ProjectStatement
  | area name => area (name.relabel how)
  | option o => option (o.relabel how)

def Declaration.relabel : Declaration → Declaration
  | import_ item => import_ (item.relabel how)
  | option o => option (o.relabel how)
  | enum e => enum (e.relabel how)
  | message m => message (m.relabel how)
  | service s => service (s.relabel how)
  | project p => project (p.relabel how)

variable {how}

variable (hnone : how.doc .none = .none)

include hnone

theorem Message.relabel_ofStatements (name : Located String) (statements : List MessageStatement) :
    (ofStatements name statements).relabel how =
      ofStatements (name.relabel how) (statements.map (·.relabel how)) := by
  rw [relabel_eq]
  simp only [ofStatements, hnone]
  congr 1
  all_goals exact map_filterMap_comm (fun s => by cases s <;> rfl) statements

theorem EnumValue.relabel_numbered
    (previous : Option Int64) (values : List (Located String × Option Int64)) :
    (numbered previous values).map (·.relabel how) =
      numbered previous (values.map fun value => (value.1.relabel how, value.2)) := by
  induction values generalizing previous with
  | nil => rfl
  | cons value values ih =>
    obtain ⟨name, number⟩ := value
    simp only [numbered, map_cons, ih]
    simp only [EnumValue.relabel, hnone]

theorem EnumDef.relabel_ofStatements (name : Located String) (statements : List EnumStatement) :
    (ofStatements name statements).relabel how =
      ofStatements (name.relabel how) (statements.map (·.relabel how)) := by
  simp only [ofStatements, relabel, hnone]
  congr 1
  · rw [EnumValue.relabel_numbered hnone]
    exact congrArg (EnumValue.numbered none)
      (map_filterMap_comm (fun s => by cases s <;> rfl) statements)
  · exact map_filterMap_comm (fun s => by cases s <;> rfl) statements

omit hnone in
theorem ServiceStatement.relabel_methods (current : CallMode) (statements : List ServiceStatement) :
    (methods current statements).map (·.relabel how) =
      methods current (statements.map (·.relabel how)) := by
  fun_induction methods current statements with
  | case1 => rfl
  | case2 current mode statements ih | case4 current option statements ih => exact ih
  | case3 current method statements ih => exact congrArg (List.cons _) ih

theorem Service.relabel_ofStatements (name : Located String) (statements : List ServiceStatement) :
    (ofStatements name statements).relabel how =
      ofStatements (name.relabel how) (statements.map (·.relabel how)) := by
  simp only [ofStatements, relabel, hnone]
  congr 1
  · exact ServiceStatement.relabel_methods .call statements
  · exact map_filterMap_comm (fun s => by cases s <;> rfl) statements

omit hnone in
theorem Project.relabel_openArea (name : Located String) (areas : List ProjectArea) :
    (openArea name areas).map (·.relabel how) =
      openArea (name.relabel how) (areas.map (·.relabel how)) := by
  have hany : (areas.map (·.relabel how)).any (·.name.value == (name.relabel how).value) =
      areas.any (·.name.value == name.value) := by
    rw [any_map]
    rfl
  unfold openArea
  rw [hany]
  split
  · rfl
  · rw [map_append]
    rfl

omit hnone in
theorem Project.relabel_addOption
    (name : Located String) (option : OptionDecl) (areas : List ProjectArea) :
    (addOption name option areas).map (·.relabel how) =
      addOption (name.relabel how) (option.relabel how) (areas.map (·.relabel how)) := by
  unfold addOption
  rw [← relabel_openArea, map_map, map_map]
  refine map_congr_left fun area _ => ?_
  by_cases hname : area.name.value = name.value
  · simp [ProjectArea.relabel, hname]
  · simp [ProjectArea.relabel, hname]

omit hnone in
theorem ProjectStatement.relabel_areas
    (current : Located String) (opened : List ProjectArea) (statements : List ProjectStatement) :
    (areas current opened statements).map (·.relabel how) =
      areas (current.relabel how) (opened.map (·.relabel how))
        (statements.map (·.relabel how)) := by
  induction statements generalizing current opened with
  | nil => rfl
  | cons statement statements ih =>
    cases statement with
    | area name =>
      rw [areas, ih, Project.relabel_openArea]
      rfl
    | option o =>
      rw [areas, ih, Project.relabel_addOption]
      rfl

theorem Schema.relabel_ofDeclarations (package : Located String) (found : List Declaration) :
    (ofDeclarations package found).relabel how =
      ofDeclarations (package.relabel how) (found.map (·.relabel how)) := by
  simp only [ofDeclarations, relabel, hnone]
  congr 1
  all_goals exact map_filterMap_comm (fun d => by cases d <;> rfl) found

end Idl

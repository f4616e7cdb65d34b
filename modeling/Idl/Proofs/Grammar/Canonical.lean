import Idl.Proofs.Grammar.WellFormed
import Mathlib.Data.List.Basic

/-!
# The canonical form of a native schema

A declaration is taken apart into statements of the native notation in a fixed order, and each
statement is written in one way: with the number of every enum value, the mode of every method and
the canonical spelling of every base type, and with a terminator at its end.  Statements that are
put together again make up the same declaration, places and comments apart.
-/

namespace Idl.Native

open List

variable {opened : List ProjectArea}

/-! ## Statements -/

def enumStatements (enum : EnumDef) : List EnumStatement :=
  enum.values.map (fun value => .value value.name (some value.number)) ++
    enum.options.map .option

def messageStatements (m : Message) : List MessageStatement :=
  m.messages.map .message ++ m.enums.map .enum ++ m.fields.map .field ++ m.options.map .option

/-- A method takes its mode from the flag before it. -/
def serviceStatements (service : Service) : List ServiceStatement :=
  (service.methods.flatMap fun method =>
    [.mode method.mode, .method { method with mode := .call }]) ++ service.options.map .option

/-- The default area is the one that is open at first. -/
def areaStatements (area : ProjectArea) : List ProjectStatement :=
  (if area.name.value = "" then [] else [.area area.name]) ++ area.options.map .option

def projectStatements (project : Project) : List ProjectStatement :=
  project.areas.flatMap areaStatements

def fileDeclarations (schema : Schema) : List Declaration :=
  schema.imports.map .import_ ++ schema.options.map .option ++ schema.enums.map .enum ++
    schema.messages.map .message ++ schema.services.map .service ++ schema.projects.map .project

/-! ### Putting statements together -/

theorem numbered_explicit (previous : Option Int64) (values : List EnumValue) :
    (EnumValue.numbered previous (values.map fun value => (value.name, some value.number))).map
      (·.relabel .plain) = values.map (·.relabel .plain) := by
  induction values generalizing previous with
  | nil => rfl
  | cons value values ih =>
    simp only [map_cons, EnumValue.numbered, Option.getD_some, ih]
    rfl

theorem enum_ofStatements (enum : EnumDef) :
    (EnumDef.ofStatements enum.name (enumStatements enum)).relabel .plain =
      enum.relabel .plain := by
  have hvalues : (enumStatements enum).filterMap (·.value?) =
      enum.values.map fun value => (value.name, some value.number) := by
    simp [enumStatements, filterMap_map, EnumStatement.value?]
  have hoptions : (enumStatements enum).filterMap (·.option?) = enum.options := by
    simp [enumStatements, filterMap_map, EnumStatement.option?]
  simp only [EnumDef.ofStatements, EnumDef.relabel, hvalues, hoptions, numbered_explicit]
  rfl

theorem message_ofStatements (m : Message) :
    (Message.ofStatements m.name (messageStatements m)).relabel .plain = m.relabel .plain := by
  rw [Message.relabel_eq, Message.relabel_eq]
  simp [Message.ofStatements, messageStatements, filterMap_map, MessageStatement.field?,
    MessageStatement.message?, MessageStatement.enum?, MessageStatement.option?, Relabel.plain]

theorem methods_serviceStatements (current : CallMode) (service : Service) :
    ServiceStatement.methods current (serviceStatements service) = service.methods := by
  have hoptions : ∀ current, ServiceStatement.methods current
      (service.options.map .option) = [] := by
    intro current
    induction service.options with
    | nil => rfl
    | cons o options ih => exact ih
  unfold serviceStatements
  induction service.methods generalizing current with
  | nil => exact hoptions current
  | cons method methods ih =>
    simp only [flatMap_cons, cons_append, nil_append, ServiceStatement.methods, ih]

theorem service_ofStatements (service : Service) :
    (Service.ofStatements service.name (serviceStatements service)).relabel .plain =
      service.relabel .plain := by
  have hoptions : (serviceStatements service).filterMap (·.option?) = service.options := by
    simp [serviceStatements, filterMap_append, filterMap_flatMap, filterMap_map,
      ServiceStatement.option?]
  simp only [Service.ofStatements, Service.relabel, methods_serviceStatements, hoptions]
  rfl

theorem file_ofDeclarations (schema : Schema) :
    (Schema.ofDeclarations schema.package.name (fileDeclarations schema)).relabel .plain =
      schema.relabel .plain := by
  simp [Schema.ofDeclarations, Schema.relabel, fileDeclarations, filterMap_map,
    Declaration.import?, Declaration.option?, Declaration.enum?, Declaration.message?,
    Declaration.service?, Declaration.project?, Relabel.plain]

/-! ### Areas -/

theorem addOption_last
    {current : Located String} (hnew : current.value ∉ opened.map (·.name.value))
    (option : OptionDecl) (options : List OptionDecl) :
    Project.addOption current option (opened ++ [⟨current, options⟩]) =
      opened ++ [⟨current, options ++ [option]⟩] := by
  have hother : opened.map (fun area =>
      if area.name.value = current.value then { area with options := area.options ++ [option] }
      else area) = opened := by
    refine (map_congr_left fun area harea => ?_).trans (map_id _)
    rw [if_neg fun hname => hnew (mem_map.2 ⟨area, harea, hname⟩)]
    rfl
  have hopen : Project.openArea current (opened ++ [⟨current, options⟩]) =
      opened ++ [⟨current, options⟩] := by
    simp [Project.openArea]
  rw [Project.addOption, hopen, map_append, hother, map_singleton, if_pos rfl]

theorem areas_options
    {current : Located String} (hnew : current.value ∉ opened.map (·.name.value))
    (found options : List OptionDecl) (more : List ProjectStatement) :
    ProjectStatement.areas current (opened ++ [⟨current, found⟩])
        (options.map .option ++ more) =
      ProjectStatement.areas current (opened ++ [⟨current, found ++ options⟩]) more := by
  induction options generalizing found with
  | nil => rw [append_nil]; rfl
  | cons option options ih =>
    rw [map_cons, cons_append, ProjectStatement.areas, addOption_last hnew, ih,
      append_assoc]
    rfl

/-- Named areas are opened one after the other. -/
theorem areas_areaStatements
    {areas : List ProjectArea} (hnamed : ∀ area ∈ areas, area.name.value ≠ "")
    (hdistinct : ((opened ++ areas).map (·.name.value)).Nodup) (current : Located String) :
    ProjectStatement.areas current opened (areas.flatMap areaStatements) = opened ++ areas := by
  induction areas generalizing current opened with
  | nil => rw [append_nil]; rfl
  | cons area areas ih =>
    obtain ⟨hname, hnames⟩ := forall_mem_cons.1 hnamed
    have hsplit : opened ++ area :: areas = (opened ++ [area]) ++ areas := by simp
    have hnew : area.name.value ∉ opened.map (·.name.value) := by
      intro hmem
      rw [map_append, map_cons] at hdistinct
      exact (nodup_append.1 hdistinct).2.2 _ hmem _ mem_cons_self rfl
    have hopen : Project.openArea area.name opened = opened ++ [⟨area.name, []⟩] := by
      refine if_neg fun hany => ?_
      obtain ⟨other, hother, heq⟩ := any_eq_true.1 hany
      exact hnew (mem_map.2 ⟨other, hother, beq_iff_eq.1 heq⟩)
    rw [flatMap_cons, areaStatements, if_neg hname, append_assoc, singleton_append,
      ProjectStatement.areas, hopen, areas_options hnew, nil_append,
      ih hnames (hsplit ▸ hdistinct), hsplit]

theorem project_ofStatements {project : Project} (h : FormedAreas project.areas) :
    (Project.ofStatements project.name (projectStatements project)).relabel .plain =
      project.relabel .plain := by
  obtain ⟨name, doc, areas⟩ := project
  suffices hareas : (ProjectStatement.areas ⟨"", default⟩ []
      (areas.flatMap areaStatements)).map (·.relabel .plain) = areas.map (·.relabel .plain) by
    simp only [Project.ofStatements, projectStatements, Project.relabel, hareas]
    rfl
  cases areas with
  | nil => rfl
  | cons first areas =>
    by_cases hname : first.name.value = ""
    · -- the options of the default area open it
      obtain ⟨firstName, options⟩ := first
      cases options with
      | nil => exact absurd rfl (h.used _ mem_cons_self hname)
      | cons option options =>
        let start : Located String := ⟨"", default⟩
        let opened : ProjectArea := ⟨start, option :: options⟩
        have hnew : start.value ∉ ([] : List ProjectArea).map (·.name.value) := not_mem_nil
        have hfirst : ∀ area ∈ areas, area.name.value ≠ "" := h.first
        have hdistinct : (([opened] ++ areas).map (·.name.value)).Nodup := by
          have hnames := h.distinct
          rwa [map_cons, hname] at hnames
        rw [flatMap_cons, areaStatements, if_pos hname, nil_append, map_cons,
          cons_append, ProjectStatement.areas]
        have hopened := areas_options hnew [option] options (areas.flatMap areaStatements)
        rw [nil_append, nil_append, singleton_append] at hopened
        refine (congrArg (List.map _) hopened).trans ?_
        rw [areas_areaStatements hfirst hdistinct, singleton_append, map_cons,
          map_cons]
        have hempty : firstName.value = "" := hname
        refine congrArg (· :: _) ?_
        simp only [ProjectArea.relabel, Located.relabel, hempty]
        rfl
    · have hnamed : ∀ area ∈ first :: areas, area.name.value ≠ "" :=
        forall_mem_cons.2 ⟨hname, h.first⟩
      rw [areas_areaStatements hnamed h.distinct, nil_append]

/-! ## Tokens -/

def valueToken : OptionValue → Token
  | .int value => .integer value
  | .text value => .text value

def optionTokens (option : OptionDecl) : List Token :=
  .identifier option.key.value ::
    ((option.value.elim [] fun value => [.punct .equals, valueToken value]) ++ [.punct .semicolon])

/-- Braces stand around options, and only where there are some. -/
def optionBlockTokens (options : List OptionDecl) : List Token :=
  if options.isEmpty then []
  else .punct .leftBrace :: (options.flatMap optionTokens ++ [.punct .rightBrace])

/-- A declaration with a body. -/
def bodyTokens (kind name : String) (body : List Token) : List Token :=
  .identifier kind :: .identifier name ::
    ((.punct .leftBrace :: (body ++ [.punct .rightBrace])) ++ [.punct .semicolon])

def enumStatementTokens : EnumStatement → List Token
  | .value name number =>
    .identifier name.value ::
      ((number.elim [] fun number => [.punct .equals, .integer number]) ++ [.punct .semicolon])
  | .option o => optionTokens o

def enumTokens (enum : EnumDef) : List Token :=
  bodyTokens "enum" enum.name.value ((enumStatements enum).flatMap enumStatementTokens)

def fieldTypeTokens : FieldType → List Token
  | .single elem => [.identifier elem.name]
  | .list elem => [.identifier "repeated", .identifier elem.name]
  | .map key elem =>
    [.identifier "map", .punct .leftAngle, .identifier key.name, .punct .comma,
      .identifier elem.name, .punct .rightAngle]

def fieldTokens (field : Field) : List Token :=
  fieldTypeTokens field.type ++ .identifier field.name.value :: .punct .equals ::
    .integer field.tag.value :: (optionBlockTokens field.options ++ [.punct .semicolon])

mutual

def messageTokens : Message → List Token
  | ⟨name, _, fields, messages, enums, options⟩ =>
    bodyTokens "message" name.value (messagesTokens messages ++ enums.flatMap enumTokens ++
      fields.flatMap fieldTokens ++ options.flatMap optionTokens)

def messagesTokens : List Message → List Token
  | [] => []
  | message :: messages => messageTokens message ++ messagesTokens messages

end

def messageStatementTokens : MessageStatement → List Token
  | .field f => fieldTokens f
  | .option o => optionTokens o
  | .message m => messageTokens m
  | .enum e => enumTokens e

theorem messagesTokens_eq_flatMap (messages : List Message) :
    messagesTokens messages = messages.flatMap messageTokens := by
  induction messages with
  | nil => rfl
  | cons message messages ih => rw [messagesTokens, flatMap_cons, ih]

theorem messageTokens_eq (m : Message) :
    messageTokens m =
      bodyTokens "message" m.name.value ((messageStatements m).flatMap messageStatementTokens) := by
  obtain ⟨name, doc, fields, messages, enums, options⟩ := m
  simp only [messageTokens, messagesTokens_eq_flatMap, messageStatements, flatMap_append,
    flatMap_map, messageStatementTokens]

/-- The type that a request or a reply is written as. -/
def messageName : MethodMessage → String
  | .inline message => message.name.value
  | .stub name _ => name.value

def methodTokens (method : Method) : List Token :=
  .identifier method.name.value :: .punct .leftParen ::
    (method.request.toList.map (fun message => .identifier (messageName message)) ++
      .punct .rightParen :: .identifier ((method.reply.map messageName).getD "void") ::
        ((method.id.elim [] fun id => [.punct .equals, .integer id.value]) ++
          (optionBlockTokens method.options ++ [.punct .semicolon])))

/-- The word that sets a mode. -/
def modeName : CallMode → String
  | .call => "call"
  | .notify => "notify"

def serviceStatementTokens : ServiceStatement → List Token
  | .mode mode => [.identifier (modeName mode), .punct .colon]
  | .method m => methodTokens m
  | .option o => optionTokens o

def projectStatementTokens : ProjectStatement → List Token
  | .area name => [.identifier name.value, .punct .colon]
  | .option o => optionTokens o

def declarationTokens : Declaration → List Token
  | .import_ item =>
    .identifier "import" :: ((item.localName.elim [] fun name => [.identifier name.value]) ++
      [.text item.file.value, .punct .semicolon])
  | .option o => optionTokens o
  | .enum e => enumTokens e
  | .message m => messageTokens m
  | .service s =>
    bodyTokens "service" s.name.value ((serviceStatements s).flatMap serviceStatementTokens)
  | .project p =>
    bodyTokens "project" p.name.value ((projectStatements p).flatMap projectStatementTokens)

/-- A whole file in canonical form. -/
def fileTokens (schema : Schema) : List Token :=
  [.identifier "package", .identifier schema.package.name.value, .punct .semicolon] ++
    (fileDeclarations schema).flatMap declarationTokens

end Idl.Native

import Idl.Proofs.Descriptor.Rereading
import Idl.Proofs.Schema.Documented

/-!
# Reading printed files

The tokens of a printed file are read declaration by declaration, and comments are attached to what
was read.  So the text of a file is read as a schema that declares the same, comments apart.
-/

namespace Idl

open List

variable {options : OptionsDesc}

/-! ## Files -/

def Import.bare (item : Import) : Import where
  file := item.file.unplaced
  localName := item.localName.map (·.unplaced)
  doc := .none
  target := none

/-- What a printed import is read as: its local name is not printed. -/
def Import.reread (item : Import) : Import where
  file := ⟨Proto.fileName item.file.value, default⟩
  localName := none
  doc := .none
  target := none

/-- The option that a printed version of the notation is read as. -/
def Protobuf.syntaxOption : OptionDecl := .plain ⟨"proto.syntax", default⟩ (some (.int 3))

/-- The option that a printed package for generated code is read as. -/
def Protobuf.goPackageOption (package : String) : OptionDecl :=
  .plain ⟨"proto.gopkg", default⟩ (some (.text package))

namespace Protobuf

open Idl.Parser

variable {n : Nat}

theorem reads_importFile (item : Import) : importFile.Reads n item.tokens item.reread := by
  refine .keyword (.commit (.peek ?_))
  exact .ahead (fun _ => rfl) (.cons (.textLiteral _) .ending)

theorem reads_option (package : String) :
    option.Reads n [.identifier "option", .identifier "go_package", .punct .equals, .text package,
      .punct .semicolon] (goPackageOption package) := by
  refine .keyword (.commit (.cons (.ahead (fun _ => rfl) (.identifier _)) (.mark ?_)))
  exact .cons (.of_head fun _ => rfl) .ending

theorem reads_syntaxVersion :
    syntaxVersion?.Reads n [.identifier "syntax", .punct .equals, .text "proto3", .punct .semicolon]
      (some syntaxOption) := by
  refine .atWord rfl (.cons (.word _) (.commit (.mark (.cons (.textLiteral _) ?_))))
  exact .ahead (fun _ => rfl) .ending

theorem reads_package (name : String) :
    package.Reads n [.identifier "package", .identifier name, .punct .semicolon] ⟨name, default⟩ :=
  .atWord rfl (.keyword (.cons (.commit (.identifier _)) .ending))

end Protobuf

namespace Schema

/-- The schema without its comments, places and bindings, as far as it is printed. -/
def bare (schema : Schema) : Schema where
  package := ⟨schema.package.name.unplaced, .none⟩
  imports := schema.imports.map (·.bare)
  options := schema.options.map (·.bare)
  enums := schema.enums.map (·.bare)
  messages := schema.messages.map (·.redraw .bare)
  services := schema.services
  projects := schema.projects

/-- What a schema is read as once it is printed under the given options. -/
def reread (options : OptionsDesc) (schema : Schema) : Schema where
  package := ⟨schema.package.name.unplaced, .none⟩
  imports := schema.imports.map (·.reread)
  options := Protobuf.syntaxOption ::
    ((Proto.goPackage? options).map Protobuf.goPackageOption).toList
  enums := schema.enums.map (·.reread)
  messages := schema.messages.map (·.redraw .reread)
  services := []
  projects := []

/-- The declarations that are printed, each with its tokens. -/
def printed (options : OptionsDesc) (schema : Schema) : List (Declaration × List Token) :=
  ((Proto.goPackage? options).map fun package =>
      (.option (Protobuf.goPackageOption package), Proto.optionTokens options)).toList
    ++ schema.imports.map (fun item => (.import_ item.reread, item.tokens))
    ++ schema.enums.map (fun enum => (.enum enum.reread, enum.tokens))
    ++ schema.messages.map fun message => (.message (message.redraw .reread), message.tokens)

theorem tokens_eq (options : OptionsDesc) (schema : Schema) :
    schema.tokens options =
      [.identifier "syntax", .punct .equals, .text "proto3", .punct .semicolon] ++
        ([.identifier "package", .identifier schema.package.name.value, .punct .semicolon] ++
          (schema.printed options).flatMap (·.2)) := by
  have hoptions : ((Proto.goPackage? options).map fun package =>
      (Declaration.option (Protobuf.goPackageOption package),
        Proto.optionTokens options)).toList.flatMap (·.2) = Proto.optionTokens options := by
    cases h : Proto.goPackage? options with
    | none => simp [Proto.optionTokens, h]
    | some package => simp
  simp only [tokens, printed, flatMap_append, hoptions, flatMap_map, append_assoc,
    cons_append, nil_append]

theorem filterMap_printed (options : OptionsDesc) (schema : Schema) :
    (schema.printed options).filterMap (·.1.import?) = schema.imports.map (·.reread) ∧
      (schema.printed options).filterMap (·.1.option?) =
        ((Proto.goPackage? options).map Protobuf.goPackageOption).toList ∧
      (schema.printed options).filterMap (·.1.enum?) = schema.enums.map (·.reread) ∧
      (schema.printed options).filterMap (·.1.message?) =
        schema.messages.map (·.redraw .reread) ∧
      (schema.printed options).filterMap (·.1.service?) = [] ∧
      (schema.printed options).filterMap (·.1.project?) = [] := by
  have hnone : ∀ {α β : Type} (xs : List α), xs.filterMap (fun _ => (none : Option β)) = [] :=
    fun xs => filterMap_eq_nil_iff.2 fun _ _ => rfl
  cases h : Proto.goPackage? options <;>
    simp [printed, h, filterMap_append, filterMap_map, hnone,
      Declaration.import?, Declaration.option?, Declaration.enum?, Declaration.message?,
      Declaration.service?, Declaration.project?]

end Schema

namespace Protobuf

open Idl.Parser

variable {n : Nat}

theorem reads_declaration
    {schema : Schema} (config : ParseConfig) (hlexical : schema.Has .lexical)
    (hprintable : schema.Has .printable) {x : Declaration × List Token}
    (hx : x ∈ schema.printed options) :
    (∃ name more, x.2 = .identifier name :: more) ∧ ∀ n, (declaration config).Reads n x.2 x.1 := by
  simp only [Schema.printed, mem_append, mem_map, Option.mem_toList] at hx
  obtain ((hx | ⟨item, hitem, rfl⟩) | ⟨e, he, rfl⟩) | ⟨m, hm, rfl⟩ := hx
  · obtain ⟨package, hpackage, rfl⟩ := Option.map_eq_some_iff.1 hx
    simp only [Proto.optionTokens, hpackage]
    exact ⟨⟨_, _, rfl⟩, fun _ => .peek (reads_option package).map⟩
  · exact ⟨⟨_, _, rfl⟩, fun _ => .peek (reads_importFile item).map⟩
  · exact ⟨⟨_, _, rfl⟩, fun _ => .peek (reads_enum (hprintable.enums e he)).map⟩
  · have hread := reads_message m (hlexical.messages m hm) (hprintable.messages m hm)
    rw [Message.tokens_eq] at hread ⊢
    exact ⟨⟨_, _, rfl⟩, fun n => .peek (hread n).map⟩

theorem schema_eq_ok
    {original : Schema} (config : ParseConfig) (hlexical : original.Has .lexical)
    (hprintable : original.Has .printable) :
    schema config (nowhere (original.tokens options)) = .ok (original.reread options, []) := by
  have hprinted := fun x (hx : x ∈ original.printed options) =>
    reads_declaration config hlexical hprintable hx
  have hdeclarations := Reads.declarations (fun x hx => (hprinted x hx).2) fun x hx =>
    (hprinted x hx).1
  have hreread : original.reread options =
      { Schema.ofDeclarations original.package.name.unplaced
        ((original.printed options).map (·.1)) with
        options := syntaxOption ::
          (Schema.ofDeclarations default ((original.printed options).map (·.1))).options } := by
    simp only [Schema.reread, Schema.ofDeclarations, filterMap_map, Function.comp_def,
      original.filterMap_printed options]
  rw [Schema.tokens_eq, nowhere, map_append, map_append, hreread]
  exact bind_ok_iff.2 ⟨_, _, reads_syntaxVersion _ le_rfl,
    bind_ok_iff.2 ⟨_, _, reads_package _ _ le_rfl, bind_ok_iff.2 ⟨_, _, hdeclarations, rfl⟩⟩⟩

end Protobuf

/-! ## What is left out already -/

theorem ElemType.bare_named (name : String) :
    (named name).mapCustom TypeName.bare = .named name := by
  unfold named
  split <;> rfl

theorem Field.bare_reread (field : Field) : field.reread.bare = field.reread := by
  have htype : ∀ signed fixed, (field.type.reread signed fixed).bare =
      field.type.reread signed fixed := by
    intro signed fixed
    cases field.type <;>
      simp only [FieldType.reread, FieldType.bare, FieldType.mapCustom, ElemType.bare_named]
  simp only [bare, reread, htype, map_map]
  rfl

theorem EnumDef.bare_reread (enum : EnumDef) : enum.reread.bare = enum.reread := by
  simp only [bare, reread, map_map, map_nil]
  rfl

theorem Redraw.reread_andThen_bare : Redraw.reread.andThen .bare = .reread := by
  have hfield : Field.bare ∘ Field.reread = Field.reread := funext Field.bare_reread
  have henum : EnumDef.bare ∘ EnumDef.reread = EnumDef.reread := funext EnumDef.bare_reread
  simp only [andThen, bare, reread, hfield, henum]
  rfl

theorem Schema.bare_reread (schema : Schema) :
    (schema.reread options).bare = schema.reread options := by
  have himport : ∀ item : Import, item.reread.bare = item.reread := by
    intro item
    simp only [Import.bare, Import.reread, Located.unplaced, Option.map_none]
  have hsyntax : Protobuf.syntaxOption.bare = Protobuf.syntaxOption := rfl
  have hpackage : ∀ package, (Protobuf.goPackageOption package).bare =
      Protobuf.goPackageOption package :=
    fun _ => rfl
  simp only [bare, reread, Located.unplaced, map_map, Function.comp_def, himport, map_cons, hsyntax,
    ← Option.toList_map, Option.map_map, hpackage, EnumDef.bare_reread, Message.redraw_redraw,
    Redraw.reread_andThen_bare]

/-! ## Comments -/

section Comments

variable (how : Relabel)

theorem OptionDecl.bare_relabel (option : OptionDecl) : (option.relabel how).bare = option.bare :=
  rfl

theorem EnumDef.bare_relabel (enum : EnumDef) : (enum.relabel how).bare = enum.bare := by
  simp only [bare, relabel, map_map, Function.comp_def, OptionDecl.bare_relabel]
  rfl

theorem Field.bare_relabel (field : Field) : (field.relabel how).bare = field.bare := by
  have htype : (field.type.relabel how).bare = field.type.bare := by
    rcases field.type with (e | e | ⟨key, e⟩) <;> cases e <;> rfl
  simp only [bare, relabel, map_map, Function.comp_def, OptionDecl.bare_relabel, htype]
  rfl

theorem Message.redraw_bare_relabel (m : Message) :
    (m.relabel how).redraw .bare = m.redraw .bare := by
  induction m using Message.induction_nested with
  | h m ih =>
    have hmessages : (m.messages.map (·.relabel how)).map (·.redraw .bare) =
        m.messages.map (·.redraw .bare) := by
      rw [map_map]
      exact map_congr_left ih
    rw [Message.relabel_eq, Message.redraw_eq, Message.redraw_eq]
    simp only [hmessages]
    simp only [Redraw.bare, map_map, Function.comp_def, EnumDef.bare_relabel,
      Field.bare_relabel, OptionDecl.bare_relabel]
    rfl

theorem Schema.bare_relabel
    {schema : Schema} (hservices : schema.services = []) (hprojects : schema.projects = []) :
    (schema.relabel how).bare = schema.bare := by
  simp only [bare, relabel, hservices, hprojects, map_map, Function.comp_def, map_nil,
    OptionDecl.bare_relabel, EnumDef.bare_relabel, Message.redraw_bare_relabel, Import.bare,
    Import.relabel, Option.map_map]
  rfl

theorem Schema.bare_withDocs
    {schema : Schema} (hservices : schema.services = []) (hprojects : schema.projects = [])
    (docs : List Doc) : (schema.withDocs docs).bare = schema.bare := by
  have hrelabel := schema.undocumented_withDocs docs
  have hservices' : (schema.withDocs docs).services = [] := by
    have h := congrArg Schema.services hrelabel
    simpa only [relabel, hservices, map_nil, map_eq_nil_iff] using h
  have hprojects' : (schema.withDocs docs).projects = [] := by
    have h := congrArg Schema.projects hrelabel
    simpa only [relabel, hprojects, map_nil, map_eq_nil_iff] using h
  rw [← bare_relabel .undocumented hservices' hprojects', hrelabel,
    bare_relabel .undocumented hservices hprojects]

end Comments

/-- A text that says what a schema says once it is printed is read as the schema again. -/
theorem Protobuf.exists_parse
    {original : Schema} {source : String} (h : Lexer.Says source.toList (original.tokens options))
    (hlexical : original.Has .lexical) (hprintable : original.Has .printable)
    (config : ParseConfig) :
    ∃ read, Dialect.protobuf.parse config source = .ok read ∧
      read.bare = original.reread options := by
  obtain ⟨tokens, htokens, hvalues⟩ := Lexer.exists_tokenize_of_says h
  obtain ⟨built, hbuilt, hplain⟩ := Dialect.protobuf.exists_build
    (schema_eq_ok config hlexical hprintable) hvalues
  have hservices : built.services = [] := map_eq_nil_iff.1 (congrArg Schema.services hplain)
  have hprojects : built.projects = [] := map_eq_nil_iff.1 (congrArg Schema.projects hplain)
  refine ⟨built.attachComments source tokens, ?_, ?_⟩
  · simp only [Dialect.parse, bind_eq_ok_iff, mapError_eq_ok_iff, pure_eq_ok_iff]
    exact ⟨tokens, htokens, built, hbuilt, rfl⟩
  · have hbare := congrArg Schema.bare hplain
    rw [Schema.bare_relabel .plain hservices hprojects, Schema.bare_reread] at hbare
    rw [← hbare]
    exact Schema.bare_withDocs hservices hprojects _

end Idl

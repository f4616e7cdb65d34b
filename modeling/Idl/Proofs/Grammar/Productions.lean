import Idl.Grammar
import Idl.Proofs.Grammar.Alike

/-!
# Productions look neither at places nor at trivia

Each production of the two dialects ends alike on streams with the same tokens, trivia and places
apart.
-/

namespace Idl

open Idl.Parser List

variable {how : Shift} {σ τ : Type} [TokenStream σ] [TokenStream τ] {view : σ → τ}
  [Carries how view]

/-! ## Parts of declarations -/

theorem OptionDecl.relabel_plain (key : Located String) (value : Option OptionValue) :
    (plain key value).relabel how = plain (key.relabel how) value := by
  simp only [plain, relabel, how.doc_none]

def WrittenElem.relabel (how : Relabel) (elem : WrittenElem) : WrittenElem :=
  ⟨elem.type.relabel how, how.span elem.span, elem.hints⟩

theorem Parser.alike_mapType
    {elem : Parser σ WrittenElem} {elem' : Parser τ WrittenElem}
    (h : Alike how view (·.relabel how) elem elem') :
    Alike how view (Prod.map (·.relabel how) id) (mapType elem) (mapType elem') := by
  refine .keyword (.commit (.mark (h.bind fun key => .mark ?_)))
  refine (Alike.atWord _).bind fun isMap => (Alike.atWord _).bind fun isList => ?_
  refine .ite (Alike.nextSpan.bind fun _ => .refuse_bind _) (h.bind fun value => .mark ?_)
  obtain ⟨base | type, span, hints⟩ := key
  · exact .ite (.pure rfl) (.refuse _)
  · exact .refuse _

theorem alike_importEnd (localName : Option (Located String)) :
    Alike how view (·.relabel how)
      (do
        let file ← textLiteral
        terminator
        return ({ file, localName, doc := .none, target := none } : Import))
      (do
        let file ← textLiteral
        terminator
        return ({ file, localName := localName.map (·.relabel how), doc := .none, target := none } :
          Import)) :=
  Alike.textLiteral.bind fun file => .ending (by simp only [Import.relabel, how.doc_none])

theorem alike_methodId
    {α : Type} {f : α → α} {next : Option (Located Int64) → Parser σ α}
    {next' : Option (Located Int64) → Parser τ α}
    (h : ∀ id, Alike how view f (next id) (next' (id.map (·.relabel how)))) :
    Alike how view f
      (do
        let id ← if (← punct? .equals).isSome then some <$> integer else pure none
        next id)
      (do
        let id ← if (← punct? .equals).isSome then some <$> integer else pure none
        next' id) :=
  .ifPunct? (Alike.integer.found.bind h) (h none)

/-- The id of a method counts only if ids are used. -/
theorem Method.relabel_id (config : ParseConfig) (id : Option (Located Int64)) :
    (if config.useMethodId then id else none).map (·.relabel how) =
      if config.useMethodId then id.map (·.relabel how) else none := by
  split <;> rfl

/-- The area of no name, which is open at first, is at the start of the text. -/
theorem Project.relabel_ofStatements (name : Located String) (statements : List ProjectStatement) :
    (ofStatements name statements).relabel how =
      ofStatements (name.relabel how) (statements.map (·.relabel how)) := by
  simp only [ofStatements, relabel, ProjectStatement.relabel_areas, how.doc_none, map_nil,
    Located.relabel, how.default]

/-! ## The native dialect -/

namespace Native

theorem alike_declaredName (what : String) :
    Alike how view (·.relabel how) (declaredName what) (declaredName what) :=
  Alike.identifier.bind fun _ => .ite (.pure rfl) (.refuse _)

theorem alike_optionKey : Alike how view (·.relabel how) optionKey optionKey :=
  Alike.identifier.bind fun _ => .ite (.pure rfl) (.refuse _)

theorem alike_option : Alike how view (·.relabel how) option option := by
  refine alike_optionKey.bind fun key =>
    .ifPunct? (Alike.optionValue.commit.found.bind fun value => ?_) ?_
  · exact .ending (by rw [OptionDecl.relabel_plain, Option.map_id, id])
  · exact .ending (OptionDecl.relabel_plain key none)

theorem alike_optionBlock : Alike how view (List.map (·.relabel how)) optionBlock optionBlock :=
  .mark ((Alike.collectUntil (Alike.atPunct _) alike_option).bind fun _ => .mark (.pure rfl))

theorem alike_optionBlock? : Alike how view (List.map (·.relabel how)) optionBlock? optionBlock? :=
  (Alike.atPunct _).bind fun _ => .ite alike_optionBlock (.pure rfl)

theorem alike_package : Alike how view (·.relabel how) package package := by
  refine (Alike.atWord _).bind fun found => ?_
  cases found with
  | true => exact .keyword ((alike_declaredName _).commit.bind fun _ => .ending rfl)
  | false => exact Alike.nextSpan.bind fun _ => .refuse_bind _

theorem alike_importFile : Alike how view (·.relabel how) importFile importFile := by
  refine .keyword (.commit (Alike.peek?.bind fun next => ?_))
  dsimp only [id]
  split
  · exact (alike_declaredName _).found.bind alike_importEnd
  · exact alike_importEnd none

theorem alike_enumValue : Alike how view (·.relabel how) enumValue enumValue := by
  refine (alike_declaredName _).bind fun name =>
    .ifPunct? (Alike.peek?.bind fun next => ?_) (.ending rfl)
  dsimp only [id]
  split
  · exact Alike.nextSpan.bind fun _ => .refuse_bind _
  · exact Alike.integer.bind fun _ => .ending rfl

theorem alike_enumStatement : Alike how view (·.relabel how) enumStatement enumStatement := by
  refine Alike.peek?.bind fun next => ?_
  dsimp only [id]
  split
  · exact .ite (alike_option.map fun _ => rfl) alike_enumValue
  · exact alike_enumValue

theorem alike_enum : Alike how view (·.relabel how) enum enum :=
  .keyword (.commit ((alike_declaredName _).bind fun name =>
    (Alike.block alike_enumStatement).bind fun found =>
      .ending (EnumDef.relabel_ofStatements how.doc_none name found)))

theorem alike_elemType : Alike how view (·.relabel how) elemType elemType := by
  refine (Alike.atPunct _).bind fun bracket => .ite ?_ (Alike.identifier.bind fun name => ?_)
  · refine (Alike.punct _).bind fun first => .mark ((Alike.word _).bind fun last => .pure ?_)
    simp only [WrittenElem.relabel, how.union]
    rfl
  · rw [Located.relabel_value]
    split
    · exact .pure rfl
    · exact .ite (.pure rfl) (.refuse _)

theorem alike_fieldType : Alike how view (·.relabel how) fieldType fieldType := by
  refine (Alike.atWord _).bind fun isMap => .ite ?_ ((Alike.atWord _).bind fun isList => .ite ?_ ?_)
  · exact (alike_mapType alike_elemType).bind fun _ => .pure rfl
  · refine .keyword ((Alike.atWord _).bind fun nested => (Alike.atWord _).bind fun nestedMap => ?_)
    exact .ite (Alike.nextSpan.bind fun _ => .refuse_bind _)
      (alike_elemType.commit.bind fun _ => .pure rfl)
  · exact alike_elemType.bind fun _ => .pure rfl

theorem alike_field : Alike how view (·.relabel how) field field := by
  refine alike_fieldType.bind fun type => .commit (Alike.identifier.bind fun name => .mark ?_)
  refine Alike.fieldTag.bind fun tag => alike_optionBlock?.bind fun options => .ending ?_
  simp only [Field.relabel, how.doc_none]

theorem alike_message : Alike how view (·.relabel how) message message := by
  refine .recursive fun nested nested' hnested => .keyword (.commit ?_)
  refine (alike_declaredName _).bind fun name => (Alike.block ?_).bind fun found =>
    .ending (Message.relabel_ofStatements how.doc_none name found)
  refine (Alike.peekMany _).bind fun next => ?_
  dsimp only [id]
  split
  · exact hnested.map fun _ => rfl
  · exact alike_enum.map fun _ => rfl
  · exact alike_field.map fun _ => rfl
  · exact alike_option.map fun _ => rfl

theorem alike_methodMessage (fieldName role : String) :
    Alike how view (Option.map (·.relabel how)) (methodMessage fieldName role)
      (methodMessage fieldName role) := by
  refine alike_elemType.bind fun elem => ?_
  obtain ⟨base | type, span, hints⟩ := elem
  · exact .refuse _
  · refine .ite (.pure rfl) (.pure ?_)
    simp only [Option.map_some, MethodMessage.relabel, Message.relabel_ofStatements how.doc_none,
      map_cons, map_nil, MessageStatement.relabel, Field.relabel, how.doc_none]
    rfl

theorem alike_method (config : ParseConfig) :
    Alike how view (·.relabel how) (method config) (method config) := by
  refine (alike_declaredName _).bind fun name => .commit (.mark ?_)
  refine (Alike.atPunct _).bind fun closed =>
    .join (.pure rfl) (alike_methodMessage _ _) fun request => .mark ?_
  refine (alike_methodMessage _ _).bind fun reply => alike_methodId fun id => ?_
  refine alike_optionBlock?.bind fun options => .ending ?_
  simp only [Method.relabel, Method.relabel_id, how.doc_none]

omit [TokenStream σ] [TokenStream τ] [Carries how view] in
theorem alike_flagMode (flag : Located String) :
    Alike how view id (flagMode flag) (flagMode (flag.relabel how)) :=
  .ite (.pure rfl) (.ite (.pure rfl) (.refuse _))

theorem alike_service (config : ParseConfig) :
    Alike how view (·.relabel how) (service config) (service config) := by
  refine .keyword (.commit
    ((alike_declaredName _).bind fun name => (Alike.block ?_).bind fun found =>
    .ending (Service.relabel_ofStatements how.doc_none name found)))
  refine (Alike.peekMany _).bind fun next => ?_
  dsimp only [id]
  split
  · exact Alike.identifier.bind fun flag => (alike_flagMode flag).bind fun _ => .mark (.pure rfl)
  · exact (alike_method config).map fun _ => rfl
  · exact alike_option.map fun _ => rfl

theorem alike_project : Alike how view (·.relabel how) project project := by
  refine .keyword (.commit
    ((alike_declaredName _).bind fun name => (Alike.block ?_).bind fun found =>
    .ending (Project.relabel_ofStatements name found)))
  refine (Alike.peekMany _).bind fun next => ?_
  dsimp only [id]
  split
  · exact (alike_declaredName _).bind fun area => .mark (.pure rfl)
  · exact alike_option.map fun _ => rfl

theorem alike_declaration (config : ParseConfig) :
    Alike how view (·.relabel how) (declaration config) (declaration config) := by
  refine Alike.peek?.bind fun next => ?_
  dsimp only [id]
  split
  · exact alike_importFile.map fun _ => rfl
  · exact alike_enum.map fun _ => rfl
  · exact alike_message.map fun _ => rfl
  · exact (alike_service config).map fun _ => rfl
  · exact alike_project.map fun _ => rfl
  · exact alike_option.map fun _ => rfl

theorem alike_schema (config : ParseConfig) :
    Alike how view (·.relabel how) (schema config) (schema config) :=
  alike_package.bind fun name => (Alike.declarations (alike_declaration config)).bind fun found =>
    .pure (Schema.relabel_ofDeclarations how.doc_none name found)

end Native

/-! ## The protobuf dialect -/

namespace Protobuf

theorem alike_syntaxVersion? :
    Alike how view (Option.map (·.relabel how)) syntaxVersion? syntaxVersion? := by
  refine (Alike.atWord _).bind fun found => ?_
  cases found with
  | false => exact .pure rfl
  | true =>
    refine (Alike.word _).bind fun span =>
      .commit (.mark (Alike.textLiteral.bind fun version => ?_))
    refine .ite (.ending ?_) (.ite (.ending ?_) (.refuse_bind _))
    all_goals exact congrArg some (OptionDecl.relabel_plain ⟨"proto.syntax", span⟩ _)

theorem alike_package : Alike how view (·.relabel how) package package := by
  refine (Alike.atWord _).bind fun found => ?_
  cases found with
  | true => exact .keyword (Alike.identifier.commit.bind fun _ => .ending rfl)
  | false => exact Alike.nextSpan.bind fun _ => .refuse_bind _

theorem alike_importFile : Alike how view (·.relabel how) importFile importFile := by
  refine .keyword (.commit (Alike.peek?.bind fun next => ?_))
  dsimp only [id]
  split
  · exact Alike.identifier.found.bind alike_importEnd
  · exact alike_importEnd none

theorem alike_optionName : Alike how view (·.relabel how) optionName optionName := by
  refine (Alike.punct? _).bind fun found => ?_
  cases found with
  | none => exact Alike.identifier
  | some first =>
    refine Alike.identifier.bind fun name => (Alike.punct _).bind fun last => .pure ?_
    simp only [Located.relabel, how.union]

theorem alike_option : Alike how view (·.relabel how) option option := by
  refine .keyword (.commit (alike_optionName.bind fun key => .mark ?_))
  refine Alike.optionValue.bind fun value => .ending ?_
  rw [OptionDecl.relabel_plain, Located.relabel_value]
  split <;> rfl

theorem alike_fieldOption : Alike how view (·.relabel how) fieldOption fieldOption :=
  alike_optionName.bind fun key => .mark (Alike.optionValue.bind fun _ =>
    .pure (OptionDecl.relabel_plain key _))

theorem alike_fieldOptions :
    Alike how view (List.map (·.relabel how)) fieldOptions fieldOptions := by
  refine .mark (alike_fieldOption.bind fun first => (Alike.collect ?_).bind fun more =>
    .mark (.pure rfl))
  exact .ifPunct? (alike_fieldOption.bind fun _ => .pure rfl) (.pure rfl)

theorem alike_enumStatement : Alike how view (·.relabel how) enumStatement enumStatement := by
  refine (Alike.atWord _).bind fun found => .ite (alike_option.map fun _ => rfl) ?_
  refine Alike.identifier.bind fun name => .mark (Alike.integer.bind fun number => ?_)
  exact (Alike.atPunct _).bind fun bracket =>
    .ite (Alike.nextSpan.bind fun _ => .refuse_bind _) (.ending rfl)

theorem alike_enum : Alike how view (·.relabel how) enum enum :=
  .keyword (.commit (Alike.identifier.bind fun name => (Alike.block alike_enumStatement).bind
    fun found => .pure (EnumDef.relabel_ofStatements how.doc_none name found)))

theorem alike_elemType : Alike how view (·.relabel how) elemType elemType := by
  refine Alike.identifier.bind fun name => ?_
  rw [Located.relabel_value]
  split
  · exact .pure rfl
  · exact .pure rfl

theorem alike_cardinality : Alike how view id cardinality cardinality :=
  (Alike.atWord _).bind fun _ => .ite (.keyword (.pure rfl)) <|
    (Alike.atWord _).bind fun _ => .ite (.keyword (.pure rfl)) <|
      (Alike.atWord _).bind fun _ => .ite (.keyword (.pure rfl)) (.pure rfl)

theorem alike_fieldType (repeated : Bool) :
    Alike how view (Prod.map (·.relabel how) id) (fieldType repeated) (fieldType repeated) := by
  refine (Alike.atWord _).bind fun isMap => .ite (alike_mapType alike_elemType) ?_
  refine alike_elemType.bind fun elem => .pure ?_
  cases repeated <;> rfl

theorem alike_field : Alike how view (·.relabel how) field field := by
  refine alike_cardinality.bind fun repeated => ?_
  refine (alike_fieldType repeated).bind fun ⟨type, hints⟩ => ?_
  refine .commit (Alike.identifier.bind fun name => .mark (Alike.fieldTag.bind fun tag => ?_))
  refine (Alike.atPunct _).bind fun bracket =>
    .join alike_fieldOptions (.pure rfl) fun written => .ending ?_
  simp only [Field.relabel, map_append, map_map, Function.comp_def,
    OptionDecl.relabel_plain, how.doc_none]
  rfl

theorem alike_message : Alike how view (·.relabel how) message message := by
  refine .recursive fun nested nested' hnested => .keyword (.commit ?_)
  refine Alike.identifier.bind fun name => (Alike.block ?_).bind fun found =>
    .pure (Message.relabel_ofStatements how.doc_none name found)
  refine (Alike.peekMany _).bind fun next => ?_
  dsimp only [id]
  split
  · exact hnested.map fun _ => rfl
  · exact alike_enum.map fun _ => rfl
  · exact alike_option.map fun _ => rfl
  · exact alike_field.map fun _ => rfl

theorem alike_rpcMessage : Alike how view (·.relabel how) rpcMessage rpcMessage :=
  Alike.identifier.bind fun _ => .ite (.refuse _) (.ite (.refuse _) (.pure rfl))

theorem alike_rpc (config : ParseConfig) :
    Alike how view (·.relabel how) (rpc config) (rpc config) := by
  refine .keyword (.commit (Alike.identifier.bind fun name => .mark ?_))
  refine alike_rpcMessage.bind fun request => .mark (.keyword (.mark ?_))
  refine alike_rpcMessage.bind fun reply => .mark (alike_methodId fun id => ?_)
  refine (Alike.atPunct _).bind fun opened =>
    .join (Alike.block alike_option) (.pure rfl) fun options => .ending ?_
  simp only [Method.relabel, Method.relabel_id, Option.map_some, how.doc_none]

theorem alike_service (config : ParseConfig) :
    Alike how view (·.relabel how) (service config) (service config) := by
  refine .keyword (.commit (Alike.identifier.bind fun name => (Alike.block ?_).bind fun found =>
    .pure (Service.relabel_ofStatements how.doc_none name found)))
  refine Alike.peek?.bind fun next => ?_
  dsimp only [id]
  split
  · exact alike_option.map fun _ => rfl
  · exact (alike_rpc config).map fun _ => rfl
  · exact .expected _

theorem alike_declaration (config : ParseConfig) :
    Alike how view (·.relabel how) (declaration config) (declaration config) := by
  refine Alike.peek?.bind fun next => ?_
  dsimp only [id]
  split
  · exact alike_importFile.map fun _ => rfl
  · exact alike_option.map fun _ => rfl
  · exact alike_enum.map fun _ => rfl
  · exact alike_message.map fun _ => rfl
  · exact (alike_service config).map fun _ => rfl
  · exact .expected _

theorem alike_schema (config : ParseConfig) :
    Alike how view (·.relabel how) (schema config) (schema config) := by
  refine alike_syntaxVersion?.bind fun version => alike_package.bind fun name => ?_
  refine (Alike.declarations (alike_declaration config)).bind fun found => .pure ?_
  rw [← Schema.relabel_ofDeclarations how.doc_none]
  simp only [Schema.relabel, map_append, Option.toList_map]

end Protobuf

namespace Dialect

variable (dialect : Dialect) (config : ParseConfig)

variable (how view) in
theorem alike_grammar :
    Alike how view (·.relabel how) (dialect.grammar config) (dialect.grammar config) := by
  cases dialect with
  | native => exact Native.alike_schema config
  | protobuf => exact Protobuf.alike_schema config

/-- Streams with one view are read alike. -/
theorem moved_grammar_eq
    (how how' : Shift) {view view' : σ → τ} [Carries how view] [Carries how' view']
    {tokens tokens' : σ} (h : view tokens = view' tokens') :
    moved how view (·.relabel how) (dialect.grammar config tokens) =
      moved how' view' (·.relabel how') (dialect.grammar config tokens') := by
  rw [← alike_grammar how view, h, alike_grammar how' view']

end Dialect

end Idl

import Idl.Proofs.Descriptor.Lines
import Idl.Proofs.Grammar.Reading
import Idl.Proofs.Schema.Sketch

/-!
# Reading what was printed

What is read from the tokens of a printed declaration is the declaration again: without comments,
with scalars in place of narrow integers and of type names that scalars have, and with no other
options than the hints of its scalars.
-/

namespace Idl

open List

variable {name : String} {f : Field} {elem : ElemType} {s : MessageStatement}

/-! ## What is compared -/

def OptionDecl.bare (option : OptionDecl) : OptionDecl := .plain option.key.unplaced option.value

def EnumValue.bare (value : EnumValue) : EnumValue := ⟨value.name.unplaced, value.number, .none⟩

def EnumDef.bare (enum : EnumDef) : EnumDef where
  name := enum.name.unplaced
  doc := .none
  values := enum.values.map (·.bare)
  options := enum.options.map (·.bare)

/-- The name alone, bound to nothing. -/
def TypeName.bare (type : TypeName) : TypeName := .unbound type.name.unplaced

def FieldType.bare (type : FieldType) : FieldType := type.mapCustom TypeName.bare

def Field.bare (field : Field) : Field where
  name := field.name.unplaced
  tag := field.tag.unplaced
  type := field.type.bare
  options := field.options.map (·.bare)
  doc := .none

/-- Places, comments and bindings are left out. -/
def Redraw.bare : Redraw where
  options := List.map (·.bare)
  field := Field.bare
  enum := EnumDef.bare

theorem Redraw.keepsNames_bare : Redraw.bare.KeepsNames := ⟨fun _ => rfl, fun _ => rfl⟩

/-- The base type that the scalar of a base type is read as. -/
def BaseType.wide : BaseType → BaseType
  | int8 | int16 => int32
  | uint8 | uint16 => uint32
  | base => base

/-- What a name is read as. -/
def ElemType.named (name : String) : ElemType :=
  match Protobuf.scalars.lookup name with
  | some (scalar, _) => .base scalar
  | none => .custom (.unbound ⟨name, default⟩)

theorem BaseType.named_scalar (signed fixed : Bool) (base : BaseType) :
    ElemType.named (base.scalar signed fixed) = .base base.wide := by
  cases signed <;> cases fixed <;> cases base <;> decide

/-- What a printed field type is read as. -/
def FieldType.reread (signed fixed : Bool) : FieldType → FieldType
  | single e => single (.named (e.printed signed fixed))
  | list e => list (.named (e.printed signed fixed))
  | map key e => map key.wide (.named (e.printed signed fixed))

/-- What a printed field is read as. -/
def Field.reread (field : Field) : Field where
  name := field.name.unplaced
  tag := field.tag.unplaced
  type := field.type.reread (OptionDecl.isSet field.options Protobuf.signedHint)
    (OptionDecl.isSet field.options Protobuf.fixedHint)
  options := field.spelling.hints.eraseDups.map fun hint => .plain ⟨hint, default⟩ (some (.int 1))
  doc := .none

/-- What a printed enum is read as. -/
def EnumDef.reread (enum : EnumDef) : EnumDef := { enum.bare with options := [] }

/-- The parts of a printed message are read as these. -/
def Redraw.reread : Redraw where
  options _ := []
  field := Field.reread
  enum := EnumDef.reread

theorem Redraw.keepsNames_reread : Redraw.reread.KeepsNames := ⟨fun _ => rfl, fun _ => rfl⟩

/-! ## What can be read -/

/-- Words that do not open the type of a field. -/
def Protobuf.reserved : List String :=
  ["message", "enum", "option", "repeated", "optional", "required"]

/-- A type name that stands alone before the name of a field is no reserved word. -/
def FieldType.Plain : FieldType → Prop
  | single (.custom type) => type.name.value ∉ Protobuf.reserved
  | _ => True

instance : DecidablePred FieldType.Plain
  | .single (.custom _) => inferInstanceAs (Decidable (_ ∉ _))
  | .single (.base _) | .list _ | .map _ _ => inferInstanceAs (Decidable True)

/-- What makes the parts of a schema readable again once they are printed: the name of an imported
file can stand between quotes, no value is taken for an option, and no type name for a word. -/
def Traits.printable : Traits where
  name _ := True
  doc _ := True
  import_ item := ∀ c ∈ (Proto.fileName item.file.value).toList, c ∉ ['\\', '"', '\n', '\r']
  enum enum := ∀ value ∈ enum.values, value.name.value ≠ "option"
  field field := field.type.Plain

/-! ## Fields -/

namespace Protobuf

open Idl.Parser

variable {n : Nat}

theorem reads_elemType (name : String) :
    elemType.Reads n [.identifier name] ⟨.named name, default, Spelling.hintsOf name⟩ := by
  refine (Reads.identifier name).bind_end ?_
  simp only [Spelling.hintsOf, ElemType.named]
  cases scalars.lookup name with
  | some scalar | none => exact .pure

theorem reads_mapType
    {key : BaseType} {scalar value : String} (hscalar : ElemType.named scalar = .base key)
    (hkey : key.isMapKey) (hvalue : value ∉ ["map", "repeated"]) :
    (mapType elemType).Reads n (Spelling.map scalar value).tokens
      (.map key (.named value), (Spelling.map scalar value).hints.eraseDups) := by
  simp only [mem_cons, not_mem_nil, or_false, not_or] at hvalue
  have hmap : (Token.identifier value == .identifier "map") = false := by simp [hvalue.1]
  have hrepeated : (Token.identifier value == .identifier "repeated") = false := by simp [hvalue.2]
  refine .keyword (.commit (.mark ((reads_elemType scalar).cons (.mark ?_))))
  refine .atWord hmap (.atWord hrepeated ((reads_elemType value).cons (.mark ?_)))
  simp only [hscalar, hkey, if_true]
  exact .pure

/-- Only the words that tell how many values a field has are read before its type. -/
theorem cardinality_of_notMem
    (h : name ∉ ["repeated", "optional", "required"]) (span : Span) (rest : List (Located Token)) :
    cardinality (⟨.identifier name, span⟩ :: rest) =
      .ok (false, ⟨.identifier name, span⟩ :: rest) := by
  simp only [mem_cons, not_mem_nil, or_false, not_or] at h
  obtain ⟨hrepeated, hoptional, hrequired⟩ := h
  have hat : ∀ word, name ≠ word → atWord word (⟨.identifier name, span⟩ :: rest) =
      .ok (false, ⟨.identifier name, span⟩ :: rest) := by
    intro word hword
    exact atWord_ok_iff.2 ⟨by simp [hword], rfl⟩
  refine bind_ok_iff.2 ⟨_, _, hat _ hrepeated, ?_⟩
  refine bind_ok_iff.2 ⟨_, _, hat _ hoptional, ?_⟩
  exact bind_ok_iff.2 ⟨_, _, hat _ hrequired, rfl⟩

theorem eraseDups_hints_of_mem_scalars :
    ∀ scalar ∈ scalars, scalar.2.2.eraseDups = scalar.2.2 := by
  decide

theorem eraseDups_hintsOf (name : String) :
    (Spelling.hintsOf name).eraseDups = Spelling.hintsOf name := by
  unfold Spelling.hintsOf
  split
  next base hints hlookup =>
    exact eraseDups_hints_of_mem_scalars _ (Assoc.mem_of_lookup_eq_some hlookup)
  next => rfl

theorem scalar_notMem_reserved (signed fixed : Bool) (base : BaseType) :
    base.scalar signed fixed ∉ "map" :: reserved := by
  cases signed <;> cases fixed <;> cases base <;> decide

/-- What is printed for a single element is none of the words that open something else. -/
theorem printed_notMem_reserved
    (hlexical : elem.Lexical ["map"]) (hplain : (FieldType.single elem).Plain)
    (signed fixed : Bool) : elem.printed signed fixed ∉ "map" :: reserved := by
  cases elem with
  | base base => exact scalar_notMem_reserved signed fixed base
  | custom type =>
    intro hmem
    rcases mem_cons.1 hmem with hmap | hreserved
    · exact hlexical.2 (mem_singleton.2 hmap)
    · exact hplain hreserved

theorem printed_notMem_containers (h : elem.Lexical ["map", "repeated"]) (signed fixed : Bool) :
    elem.printed signed fixed ∉ ["map", "repeated"] := by
  cases elem with
  | base base =>
    have hwords : ["map", "repeated"] ⊆ "map" :: reserved := by decide
    exact fun hmem => scalar_notMem_reserved signed fixed base (hwords hmem)
  | custom type => exact h.2

theorem reads_fieldType_elem (repeated : Bool) (h : repeated = false → name ≠ "map") :
    (fieldType repeated).Reads n [.identifier name]
      (if repeated then .list (.named name) else .single (.named name),
        (Spelling.hintsOf name).eraseDups) := by
  have hmap : (!repeated && (Token.identifier name == .identifier "map")) = false := by
    cases repeated with
    | true => rfl
    | false => simp [h rfl]
  refine .atWord rfl ?_
  simp only [hmap, Bool.false_eq_true, if_false]
  rw [eraseDups_hintsOf]
  exact (reads_elemType name).bind_end .pure

theorem reads_fieldType
    {type : FieldType} (hlexical : type.Lexical) (hplain : type.Plain) (signed fixed : Bool)
    {β : Type} {b : β} {next : FieldType × List String → PlainParser β} {more : List Token}
    (hnext : (next (type.reread signed fixed, (type.spelling signed fixed).hints.eraseDups)).Reads n
      more b) :
    Reads n (cardinality >>= fun repeated => fieldType repeated >>= next)
      ((type.spelling signed fixed).tokens ++ more) b := by
  cases type with
  | single elem =>
    have hname := printed_notMem_reserved hlexical hplain signed fixed
    have hwords : ["repeated", "optional", "required"] ⊆ "map" :: reserved := by decide
    have hne : elem.printed signed fixed ≠ "map" := fun h => hname (h ▸ mem_cons_self)
    exact .ahead (fun _ => cardinality_of_notMem (fun hmem => hname (hwords hmem)) _ _)
      ((reads_fieldType_elem false fun _ => hne).cons hnext)
  | list elem => exact .cons (.of_head fun _ => rfl) ((reads_fieldType_elem true nofun).cons hnext)
  | map key elem =>
    obtain ⟨hkey, helem⟩ := hlexical
    have hwide : key.wide.isMapKey := by cases key <;> first | rfl | exact hkey
    have hvalue := printed_notMem_containers helem signed fixed
    have hread :
        (fieldType false).Reads n ((FieldType.map key elem).spelling signed fixed).tokens _ :=
      .atWord rfl (reads_mapType (key.named_scalar signed fixed) hwide hvalue)
    exact .ahead (fun _ => cardinality_of_notMem (by decide) _ _) (hread.bind hnext)

theorem reads_field (h : Traits.lexical.field f) (hplain : f.type.Plain) :
    field.Reads n f.tokens f.reread := by
  refine reads_fieldType h.2.2.2 hplain _ _ (.commit ?_)
  refine .cons (.identifier _) (.mark (.cons (.fieldTag h.2.2.1) (.atPunct rfl ?_)))
  refine .ahead (fun _ => rfl) ?_
  simp only [append_nil]
  exact .ending

/-! ## Enums -/

theorem reads_enumStatement {value : EnumValue} (h : value.name.value ≠ "option") :
    enumStatement.Reads n value.tokens (.value value.name.unplaced (some value.number)) := by
  have hoption : (Token.identifier value.name.value == .identifier "option") = false := by simp [h]
  refine .atWord hoption ?_
  exact .cons (.identifier _) (.mark (.cons (.integer _) (.atPunct rfl .ending)))

theorem numbered_unplaced (previous : Option Int64) (values : List EnumValue) :
    EnumValue.numbered previous
      (values.map fun value => (value.name.unplaced, some value.number)) = values.map (·.bare) := by
  induction values generalizing previous with
  | nil => rfl
  | cons value values ih =>
    simp only [map_cons, EnumValue.numbered, Option.getD_some, ih]
    rfl

theorem reads_enum {e : EnumDef} (h : Traits.printable.enum e) :
    enum.Reads n e.tokens e.reread := by
  refine .keyword (.commit (.cons (.identifier _) ?_))
  have hblock : (block enumStatement).Reads n _ _ :=
    .block (fun value hvalue => reads_enumStatement (h value hvalue)) fun value _ => ⟨_, _, rfl⟩
  have hreread : e.reread = .ofStatements e.name.unplaced
      (e.values.map fun value => .value value.name.unplaced (some value.number)) := by
    simp [EnumDef.reread, EnumDef.bare, EnumDef.ofStatements, filterMap_map,
      EnumStatement.value?, EnumStatement.option?, numbered_unplaced]
  rw [hreread]
  exact hblock.map

/-! ## Messages -/

theorem exists_field_tokens (h : Traits.lexical.field f) (hplain : f.type.Plain) :
    ∃ name second more, f.tokens = .identifier name :: second :: more ∧
      MessageItem.ofTokens [.identifier name, second] = .field := by
  obtain ⟨name, tag, type, options, doc⟩ := f
  cases type with
  | single elem =>
    have hname := printed_notMem_reserved h.2.2.2 hplain (OptionDecl.isSet options signedHint)
      (OptionDecl.isSet options fixedHint)
    refine ⟨_, _, _, rfl, ?_⟩
    unfold MessageItem.ofTokens
    split <;> simp_all [reserved]
  | list elem | map key elem => exact ⟨_, _, _, rfl, rfl⟩

end Protobuf

namespace Message

theorem Has.of_mem_statements {T : Traits} {m : Message} (h : m.Has T) (hs : s ∈ m.statements) :
    s.Has T := by
  obtain ⟨⟨-, -, henums, hfields⟩, hmessages⟩ := has_iff.1 h
  simp only [statements, mem_append, mem_map] at hs
  obtain (⟨e, he, rfl⟩ | ⟨sub, hsub, rfl⟩) | ⟨f, hf, rfl⟩ := hs
  · exact henums e he
  · exact hmessages sub hsub
  · exact hfields f hf

end Message

def MessageStatement.tokens : MessageStatement → List Token
  | field f => f.tokens
  | message m => m.tokens
  | enum e => e.tokens
  | option _ => []

theorem Message.tokens_eq (m : Message) :
    m.tokens = declarationTokens "message" m.name.value (m.statements.flatMap (·.tokens)) := by
  obtain ⟨name, doc, fields, messages, enums, options⟩ := m
  simp only [tokens, allTokens_eq_flatMap, statements, flatMap_append, flatMap_map,
    MessageStatement.tokens]

namespace Protobuf

open Idl.Parser

variable {n : Nat}

theorem reads_messageStatement
    {nested : PlainParser Message} (hlexical : s.Has .lexical) (hprintable : s.Has .printable)
    (hoption : ∀ o, s ≠ .option o)
    (hnested : ∀ m, s = .message m → nested.Reads n m.tokens (m.redraw .reread)) :
    (messageStatement nested).Reads n s.tokens (s.redraw .reread) := by
  cases s with
  | option o => exact absurd rfl (hoption o)
  | message m =>
    have hread := hnested m rfl
    rw [Message.tokens_eq] at hread
    rw [MessageStatement.tokens, Message.tokens_eq]
    exact .peekTwo hread.map
  | enum e => exact .peekTwo (reads_enum hprintable).map
  | field f =>
    have hread := reads_field (n := n) hlexical hprintable
    obtain ⟨name, second, more, htokens, hitem⟩ := exists_field_tokens hlexical hprintable
    simp only [MessageStatement.tokens]
    rw [htokens] at hread ⊢
    refine .peekTwo ?_
    simp only [hitem]
    exact hread.map

theorem exists_statement_tokens
    (hlexical : s.Has .lexical) (hprintable : s.Has .printable) (hoption : ∀ o, s ≠ .option o) :
    ∃ name more, s.tokens = .identifier name :: more := by
  cases s with
  | option o => exact absurd rfl (hoption o)
  | message m => exact ⟨_, _, m.tokens_eq⟩
  | enum e => exact ⟨_, _, rfl⟩
  | field f =>
    obtain ⟨name, second, more, htokens, -⟩ := exists_field_tokens hlexical hprintable
    exact ⟨name, second :: more, htokens⟩

theorem reads_message
    (m : Message) (hlexical : m.Has .lexical) (hprintable : m.Has .printable) (n : Nat) :
    message.Reads n m.tokens (m.redraw .reread) := by
  induction m using Message.induction_nested generalizing n with
  | h m ih =>
    have hoption : ∀ s ∈ m.statements, ∀ o, s ≠ .option o := by
      rintro _ hs o rfl
      simp [Message.statements] at hs
    rw [Message.tokens_eq, Message.redraw_eq_ofStatements rfl rfl]
    refine Reads.recursive (by simp [declarationTokens]) (fun n nested hnested => ?_) n
    refine .bind_fewer (Reads.word _).map (.commit (.cons (.identifier _) ?_))
    refine (Reads.block (fun s hs => ?_) fun s hs => ?_).map
    · refine reads_messageStatement (hlexical.of_mem_statements hs)
        (hprintable.of_mem_statements hs) (hoption s hs) ?_
      rintro sub rfl
      have hmem : sub ∈ m.messages := by simpa [Message.statements] using hs
      exact hnested _ _
        (ih sub hmem ((Message.has_iff.1 hlexical).2 sub hmem)
          ((Message.has_iff.1 hprintable).2 sub hmem))
    · exact exists_statement_tokens (hlexical.of_mem_statements hs)
        (hprintable.of_mem_statements hs) (hoption s hs)

end Protobuf

end Idl

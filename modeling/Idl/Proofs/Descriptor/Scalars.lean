import Idl.Analysis.Definition
import Idl.Descriptor.Describe
import Idl.Descriptor.Proto
import Idl.Proofs.Analysis.Rebinding
import Idl.Proofs.Grammar.Parts

/-!
# Scalars that are read and printed again

A scalar of the protobuf notation is read as a base type with hints on its encoding, and the hints
become options of the field.  A field has one set of hints, so the two scalars of a map share
theirs: a map is printed as it was written exactly when the hints of its key are true of its value
and those of its value are true of its key.
-/

namespace Idl

open List

variable {name : String} {fixed signed : Bool} {key value : String} {elem : ElemType}
  {spelling : Spelling} {type : FieldType} {found : FieldType × List String}

/-! ## Printed types -/

namespace Assoc

variable {κ α : Type} [BEq κ] [LawfulBEq κ]

theorem isSome_lookup_ofEntries (entries : List (κ × α)) (key : κ) :
    ((ofEntries entries).lookup key).isSome = entries.any (key == ·.1) := by
  suffices h : ∀ table : Assoc κ α,
      ((entries.foldl (fun table entry => put entry.1 entry.2 table) table).lookup key).isSome =
        ((table.lookup key).isSome || entries.any (key == ·.1)) by
    exact (h []).trans (by simp)
  induction entries with
  | nil => simp
  | cons entry entries ih =>
    intro table
    rw [foldl_cons, ih, lookup_put, any_cons]
    cases key == entry.1 <;> simp

end Assoc

/-- Whether an option of the given key is set. -/
def OptionDecl.isSet (options : List OptionDecl) (key : String) : Bool :=
  options.any (key == ·.key.value)

theorem OptionDecl.isSome_lookup_describeAll (options : List OptionDecl) (key : String) :
    ((OptionDecl.describeAll options).lookup key).isSome = OptionDecl.isSet options key := by
  rw [describeAll, Assoc.isSome_lookup_ofEntries, any_map]
  rfl

/-- An element as it is printed: a base type by its scalar, a type name as it is written. -/
def ElemType.printed (signed fixed : Bool) : ElemType → String
  | base b => b.scalar signed fixed
  | custom type => type.name.value

/-- A field type as it is printed. -/
def FieldType.printed (signed fixed : Bool) : FieldType → String
  | single e => e.printed signed fixed
  | list e => "repeated " ++ e.printed signed fixed
  | map key e => "map<" ++ key.scalar signed fixed ++ ", " ++ e.printed signed fixed ++ ">"

/-- What is printed for the type of a field depends on the type and on two of its options. -/
theorem Proto.typeName_describe (copy : MessageRef → Option MessageDesc) (field : Field) :
    Proto.typeName (field.describe copy) =
      field.type.printed (OptionDecl.isSet field.options Protobuf.signedHint)
        (OptionDecl.isSet field.options Protobuf.fixedHint) := by
  rw [← OptionDecl.isSome_lookup_describeAll, ← OptionDecl.isSome_lookup_describeAll]
  obtain ⟨name, tag, type, options, doc⟩ := field
  rcases type with (e | e | ⟨key, e⟩) <;> cases e <;> rfl

/-! ## Written types -/

/-- A field type as it is written in the protobuf notation, name by name. -/
inductive Spelling
  | single (name : String)
  | list (name : String)
  | map (key value : String)
deriving DecidableEq, Repr

namespace Spelling

def tokens : Spelling → List Token
  | single name => [.identifier name]
  | list name => [.identifier "repeated", .identifier name]
  | map key value =>
    [.identifier "map", .punct .leftAngle, .identifier key, .punct .comma, .identifier value,
      .punct .rightAngle]

def text : Spelling → String
  | single name => name
  | list name => "repeated " ++ name
  | map key value => "map<" ++ key ++ ", " ++ value ++ ">"

/-- The hints on the encoding of a name; a name that is no scalar has none. -/
def hintsOf (name : String) : List String :=
  match Protobuf.scalars.lookup name with
  | some (_, hints) => hints
  | none => []

/-- The hints on the encoding of all names. -/
def hints : Spelling → List String
  | single name | list name => hintsOf name
  | map key value => hintsOf key ++ hintsOf value

end Spelling

/-- The element is what is read from a name. -/
def ElemType.Spelt (elem : ElemType) (name : String) : Prop :=
  match Protobuf.scalars.lookup name with
  | some (scalar, _) => elem = .base scalar
  | none => ∃ type : TypeName, elem = .custom type ∧ type.name.value = name

/-- The field type is what is read from a written one. -/
inductive FieldType.Spelt : FieldType → Spelling → Prop
  | single {elem : ElemType} {name : String} (h : elem.Spelt name) :
      Spelt (.single elem) (.single name)
  | list {elem : ElemType} {name : String} (h : elem.Spelt name) : Spelt (.list elem) (.list name)
  | map {base : BaseType} {elem : ElemType} {key name : String}
      (hkey : (ElemType.base base).Spelt key) (h : elem.Spelt name) :
      Spelt (.map base elem) (.map key name)

namespace Protobuf

open Idl.Parser

variable {tokens rest : List (Located Token)}

theorem elemType_eq_ok {elem : WrittenElem} (h : elemType tokens = .ok (elem, rest)) :
    ∃ name span, tokens = ⟨.identifier name, span⟩ :: rest ∧ elem.type.Spelt name ∧
      elem.hints = Spelling.hintsOf name := by
  simp only [elemType, bind_ok_iff, identifier_ok_iff] at h
  obtain ⟨name, _, rfl, h⟩ := h
  refine ⟨name.value, name.span, ?_⟩
  simp only [ElemType.Spelt, Spelling.hintsOf]
  cases hlookup : scalars.lookup name.value with
  | some found =>
    simp only [hlookup] at h
    obtain ⟨rfl, rfl⟩ := pure_ok_iff.1 h
    exact ⟨rfl, rfl, rfl⟩
  | none =>
    simp only [hlookup] at h
    obtain ⟨rfl, rfl⟩ := pure_ok_iff.1 h
    exact ⟨rfl, ⟨_, rfl, rfl⟩, rfl⟩

theorem cardinality_eq_ok (h : cardinality tokens = .ok (true, rest)) :
    ∃ span, tokens = ⟨.identifier "repeated", span⟩ :: rest := by
  simp only [cardinality, bind_ok_iff, atWord_ok_iff] at h
  obtain ⟨_, _, ⟨rfl, rfl⟩, h⟩ := h
  split at h
  · simp only [bind_ok_iff, discard_ok_iff, word_ok_iff, pure_ok_iff] at h
    obtain ⟨_, _, ⟨span, rfl⟩, -, rfl⟩ := h
    exact ⟨span, rfl⟩
  · simp only [bind_ok_iff, atWord_ok_iff] at h
    obtain ⟨_, _, ⟨rfl, rfl⟩, h⟩ := h
    split at h
    · simp only [bind_ok_iff, pure_ok_iff, Bool.false_eq_true, false_and, and_false,
        exists_false] at h
    · simp only [bind_ok_iff, atWord_ok_iff] at h
      obtain ⟨_, _, ⟨rfl, rfl⟩, h⟩ := h
      split at h
      · simp only [bind_ok_iff, pure_ok_iff, Bool.false_eq_true, false_and, and_false,
          exists_false] at h
      · simp only [pure_ok_iff, Bool.false_eq_true, false_and] at h

theorem mapType_elemType_eq_ok (h : mapType elemType tokens = .ok (found, rest)) :
    ∃ spelled key value, tokens = spelled ++ rest ∧
      spelled.map (·.value) = (Spelling.map key value).tokens ∧ found.1.Spelt (.map key value) ∧
      ∀ hint, hint ∈ found.2 ↔ hint ∈ (Spelling.map key value).hints := by
  obtain ⟨word, left, comma, right, first, second, key, value, base, rfl, hkey, hvalue, -, hbase, -,
    rfl⟩ := mapType_eq_ok h
  obtain ⟨keyName, keySpan, rfl, hkeyName, hkeyHints⟩ := elemType_eq_ok hkey
  obtain ⟨valueName, valueSpan, rfl, hvalueName, hvalueHints⟩ := elemType_eq_ok hvalue
  rw [hbase] at hkeyName
  refine ⟨[⟨_, word⟩, ⟨_, left⟩, ⟨_, keySpan⟩, ⟨_, comma⟩, ⟨_, valueSpan⟩, ⟨_, right⟩], keyName,
    valueName, rfl, rfl, .map hkeyName hvalueName, fun hint => ?_⟩
  rw [mem_eraseDups, hkeyHints, hvalueHints]
  rfl

/-- A type that is read stands at the end of what was read, and its names are read as they are. -/
theorem fieldType_eq_ok
    {before : List (Located Token)} {repeated : Bool}
    (hbefore : cardinality before = .ok (repeated, tokens))
    (h : fieldType repeated tokens = .ok (found, rest)) :
    ∃ lead spelled spelling, before = lead ++ (spelled ++ rest) ∧
      spelled.map (·.value) = Spelling.tokens spelling ∧ found.1.Spelt spelling ∧
      ∀ hint, hint ∈ found.2 ↔ hint ∈ spelling.hints := by
  simp only [fieldType, bind_ok_iff, atWord_ok_iff] at h
  obtain ⟨_, _, ⟨rfl, rfl⟩, h⟩ := h
  split at h
  next =>
    obtain ⟨lead, rfl⟩ := Advances.suffix before repeated tokens hbefore
    obtain ⟨spelled, key, value, rfl, hspelled, htype, hhints⟩ := mapType_elemType_eq_ok h
    exact ⟨lead, spelled, .map key value, rfl, hspelled, htype, hhints⟩
  next =>
    simp only [bind_ok_iff, pure_ok_iff] at h
    obtain ⟨elem, _, helem, rfl, rfl⟩ := h
    obtain ⟨name, span, rfl, hname, hhints⟩ := elemType_eq_ok helem
    cases repeated with
    | true =>
      obtain ⟨word, rfl⟩ := cardinality_eq_ok hbefore
      exact ⟨[], [⟨_, word⟩, ⟨_, span⟩], .list name, rfl, rfl, .list hname, fun hint => by
        rw [hhints]; rfl⟩
    | false =>
      obtain ⟨lead, rfl⟩ := Advances.suffix before false _ hbefore
      exact ⟨lead, [⟨_, span⟩], .single name, rfl, rfl, .single hname, fun hint => by
        rw [hhints]; rfl⟩

/-- Where a field stands in the source, how its type is written there, and that its options are the
hints on its encoding unless options are written. -/
def Written (source : List (Located Token)) (f : Field) : Prop :=
  ∃ before spelled spelling equals after,
    source = before ++ (spelled ++ ⟨.identifier f.name.value, f.name.span⟩ ::
      ⟨.punct .equals, equals⟩ :: ⟨.integer f.tag.value, f.tag.span⟩ :: after) ∧
    spelled.map (·.value) = Spelling.tokens spelling ∧ f.type.Spelt spelling ∧
    (after.head?.map (·.value) ≠ some (.punct .leftBracket) →
      ∀ hint, OptionDecl.isSet f.options hint ↔ hint ∈ spelling.hints)

theorem within_written (source : List (Located Token)) : field.Within source (Written source) := by
  intro tokens f rest hsource h
  simp only [field, bind_ok_iff, commit_ok_iff, identifier_ok_iff, discard_ok_iff, punct_ok_iff,
    fieldTag_ok_iff, atPunct_ok_iff] at h
  obtain ⟨repeated, _, hcardinality, ⟨type, hints⟩, _, htype, name, _, rfl, _, _, ⟨equals, rfl⟩,
    tag, after, ⟨rfl, -⟩, _, _, ⟨rfl, rfl⟩, h⟩ := h
  obtain ⟨lead, spelled, spelling, rfl, hspelled, hspelt, hhints⟩ :=
    fieldType_eq_ok hcardinality htype
  obtain ⟨before, rfl⟩ := hsource
  have hplace : ∀ f : Field, f.name = name → f.tag = tag → f.type = type →
      (after.head?.map (·.value) ≠ some (.punct .leftBracket) →
        ∀ hint, OptionDecl.isSet f.options hint ↔ hint ∈ spelling.hints) →
      Written (before ++ (lead ++ (spelled ++ ⟨.identifier name.value, name.span⟩ ::
        ⟨.punct .equals, equals⟩ :: ⟨.integer tag.value, tag.span⟩ :: after))) f := by
    rintro f rfl rfl rfl hoptions
    exact ⟨before ++ lead, spelled, spelling, equals, after, by rw [append_assoc], hspelled,
      hspelt, hoptions⟩
  split at h
  next hbracket =>
    simp only [bind_ok_iff, pure_ok_iff] at h
    obtain ⟨written, _, -, _, _, -, rfl, -⟩ := h
    exact hplace _ rfl rfl rfl fun hnot => absurd (eq_of_beq hbracket) hnot
  next =>
    simp only [bind_ok_iff, pure_ok_iff] at h
    obtain ⟨_, _, ⟨rfl, rfl⟩, _, _, -, rfl, -⟩ := h
    refine hplace _ rfl rfl rfl fun _ hint => ?_
    rw [← hhints]
    simp [OptionDecl.isSet, OptionDecl.plain]

theorem Written.of_undocumented
    {source : List (Located Token)} {f f' : Field} (h : Written source f)
    (heq : f'.relabel .undocumented = f.relabel .undocumented) : Written source f' := by
  simp only [Field.relabel, FieldType.relabel_undocumented, Located.relabel_undocumented,
    Field.mk.injEq] at heq
  obtain ⟨hname, htag, htype, hoptions, -⟩ := heq
  have hset : ∀ options : List OptionDecl,
      OptionDecl.isSet (options.map (·.relabel .undocumented)) = OptionDecl.isSet options := by
    intro options
    funext key
    simp [OptionDecl.isSet, any_map, OptionDecl.relabel, Function.comp_def]
  rw [Written, hname, htag, htype, ← hset, hoptions, hset]
  exact h

end Protobuf

/-! ## Hints that key and value share -/

namespace BaseType

def isSigned : BaseType → Bool
  | int8 | int16 | int32 | int64 => true
  | _ => false

def isInteger : BaseType → Bool
  | uint8 | uint16 | uint32 | uint64 => true
  | base => base.isSigned

end BaseType

namespace Spelling

open Protobuf

/-- The hints that are set are those of the name, as far as they matter to it: full width to all
integers, a folded sign to those that are signed and not of full width. -/
def Fits (signed fixed : Bool) (name : String) : Prop :=
  ∀ base hints, scalars.lookup name = some (base, hints) →
    (base.isInteger → (fixed = true ↔ fixedHint ∈ hints)) ∧
      (base.isSigned → fixed = false → (signed = true ↔ signedHint ∈ hints))

/-- The two scalars of a map agree on their hints: where both are integers, both have full width or
neither has; where both are signed, both fold their sign or neither does. -/
def Agrees : Spelling → Prop
  | single _ | list _ => True
  | map key value => ∀ k hk v hv, scalars.lookup key = some (k, hk) →
      scalars.lookup value = some (v, hv) →
      (k.isInteger → v.isInteger → (fixedHint ∈ hk ↔ fixedHint ∈ hv)) ∧
        (k.isSigned → v.isSigned → (signedHint ∈ hk ↔ signedHint ∈ hv))

/-- What the table of scalars says about hints: only integers have any, only signed ones fold their
sign, and signed ones of full width do. -/
theorem hints_of_mem_scalars :
    ∀ s ∈ scalars, (fixedHint ∈ s.2.2 → s.2.1.isInteger) ∧ (signedHint ∈ s.2.2 → s.2.1.isSigned) ∧
      (s.2.1.isSigned → fixedHint ∈ s.2.2 → signedHint ∈ s.2.2) ∧
      (s.2.1.isSigned → s.2.1.isInteger) := by
  decide

/-- A scalar is printed as it was written exactly with the hints that fit it. -/
theorem scalar_eq_iff_of_mem_scalars (signed fixed : Bool) :
    ∀ s ∈ scalars, s.2.1.scalar signed fixed = s.1 ↔
      (s.2.1.isInteger → (fixed = true ↔ fixedHint ∈ s.2.2)) ∧
        (s.2.1.isSigned → fixed = false → (signed = true ↔ signedHint ∈ s.2.2)) := by
  cases signed <;> cases fixed <;> decide

theorem comma_notMem_of_mem_scalars : ∀ s ∈ scalars, ',' ∉ s.1.toList := by
  decide

end Spelling

theorem BaseType.comma_notMem_scalar (signed fixed : Bool) (base : BaseType) :
    ',' ∉ (base.scalar signed fixed).toList := by
  cases base <;> cases signed <;> cases fixed <;> decide

open Spelling Protobuf

theorem ElemType.Spelt.printed_eq_iff (h : elem.Spelt name) (signed fixed : Bool) :
    elem.printed signed fixed = name ↔ Fits signed fixed name := by
  unfold ElemType.Spelt at h
  cases hlookup : scalars.lookup name with
  | none =>
    simp only [hlookup] at h
    obtain ⟨type, rfl, rfl⟩ := h
    simp [ElemType.printed, Fits, hlookup]
  | some found =>
    obtain ⟨base, hints⟩ := found
    simp only [hlookup] at h
    subst h
    have hmem := Assoc.mem_of_lookup_eq_some hlookup
    simp [ElemType.printed, Fits, hlookup, scalar_eq_iff_of_mem_scalars signed fixed _ hmem]

theorem Spelling.text_map_inj
    {key' value' : String} (hkey : ',' ∉ key.toList) (hkey' : ',' ∉ key'.toList) :
    (map key value).text = (map key' value').text ↔ key = key' ∧ value = value' := by
  refine ⟨fun h => ?_, fun ⟨hk, hv⟩ => by rw [hk, hv]⟩
  have hfirst : ∀ (k : String) (rest : List Char), ',' ∉ k.toList →
      (k.toList ++ ',' :: rest).takeWhile (· != ',') = k.toList := by
    intro k rest hk
    have hall : ∀ c ∈ k.toList, (c != ',') = true :=
      fun c hc => bne_iff_ne.2 fun heq => hk (heq ▸ hc)
    rw [takeWhile_append_of_pos hall]
    simp
  have hlists : key.toList ++ ',' :: ' ' :: (value.toList ++ ['>']) =
      key'.toList ++ ',' :: ' ' :: (value'.toList ++ ['>']) := by
    simpa [text] using congrArg String.toList h
  obtain rfl : key = key' := by
    apply String.toList_inj.1
    rw [← hfirst key _ hkey, hlists, hfirst key' _ hkey']
  refine ⟨rfl, String.toList_inj.1 ?_⟩
  simpa using hlists

theorem Spelling.fits_iff
    {base : BaseType} {hints : List String} (h : scalars.lookup name = some (base, hints))
    (signed fixed : Bool) :
    Fits signed fixed name ↔ (base.isInteger → (fixed = true ↔ fixedHint ∈ hints)) ∧
      (base.isSigned → fixed = false → (signed = true ↔ signedHint ∈ hints)) := by
  simp [Fits, h]

/-- The hints of both names fit both names exactly when the two scalars agree. -/
theorem Spelling.fits_and_fits_iff
    (hsigned : signed = true ↔ signedHint ∈ (map key value).hints)
    (hfixed : fixed = true ↔ fixedHint ∈ (map key value).hints) :
    Fits signed fixed key ∧ Fits signed fixed value ↔ (map key value).Agrees := by
  simp only [hints, hintsOf, mem_append] at hsigned hfixed
  cases hkey : scalars.lookup key with
  | none =>
    simp only [hkey, not_mem_nil, false_or] at hsigned hfixed
    simp only [Fits, Agrees, hkey, reduceCtorEq, false_implies, implies_true, true_and, iff_true]
    intro base hints hvalue
    simp only [hvalue] at hsigned hfixed
    exact ⟨fun _ => hfixed, fun _ _ => hsigned⟩
  | some k =>
    obtain ⟨k, hk⟩ := k
    rw [fits_iff hkey]
    cases hvalue : scalars.lookup value with
    | none =>
      simp only [hkey, hvalue, not_mem_nil, or_false] at hsigned hfixed
      simp [Fits, Agrees, hvalue, hsigned, hfixed]
    | some v =>
      obtain ⟨v, hv⟩ := v
      have hkeyHints := hints_of_mem_scalars _ (Assoc.mem_of_lookup_eq_some hkey)
      have hvalueHints := hints_of_mem_scalars _ (Assoc.mem_of_lookup_eq_some hvalue)
      have hagrees : (map key value).Agrees ↔
          (k.isInteger → v.isInteger → (fixedHint ∈ hk ↔ fixedHint ∈ hv)) ∧
            (k.isSigned → v.isSigned → (signedHint ∈ hk ↔ signedHint ∈ hv)) := by
        refine ⟨fun h => h k hk v hv hkey hvalue, fun h _ _ _ _ hkey' hvalue' => ?_⟩
        cases hkey.symm.trans hkey'
        cases hvalue.symm.trans hvalue'
        exact h
      simp only [hkey, hvalue] at hsigned hfixed
      rw [fits_iff hvalue, hagrees]
      -- what is left is about which of the two have which hint
      grind

theorem FieldType.Spelt.printed_eq_iff
    (h : type.Spelt spelling) (hsigned : signed = true ↔ signedHint ∈ spelling.hints)
    (hfixed : fixed = true ↔ fixedHint ∈ spelling.hints) :
    type.printed signed fixed = spelling.text ↔ spelling.Agrees := by
  -- a name alone has no hints but its own
  have hfits : ∀ {name}, spelling.hints = hintsOf name → Fits signed fixed name := by
    intro name hhints base hints hlookup
    have hown : spelling.hints = hints := by rw [hhints, hintsOf, hlookup]
    rw [hown] at hsigned hfixed
    exact ⟨fun _ => hfixed, fun _ _ => hsigned⟩
  cases h with
  | single h => simpa [FieldType.printed, Spelling.text, Agrees, h.printed_eq_iff] using hfits rfl
  | list h => simpa [FieldType.printed, Spelling.text, Agrees, h.printed_eq_iff] using hfits rfl
  | @map base elem key name hkey h =>
    have hcomma : ',' ∉ key.toList := by
      unfold ElemType.Spelt at hkey
      cases hlookup : scalars.lookup key with
      | none => simp [hlookup] at hkey
      | some found => exact comma_notMem_of_mem_scalars _ (Assoc.mem_of_lookup_eq_some hlookup)
    rw [← fits_and_fits_iff hsigned hfixed, ← hkey.printed_eq_iff, ← h.printed_eq_iff]
    exact text_map_inj (base.comma_notMem_scalar signed fixed) hcomma

theorem ElemType.Spelt.of_unbind
    {elem' : ElemType} (h : elem.Spelt name)
    (heq : elem'.mapCustom (·.unbind) = elem.mapCustom (·.unbind)) : elem'.Spelt name := by
  cases elem with
  | base base =>
    cases elem' with
    | base base' =>
      cases heq
      exact h
    | custom type' => cases heq
  | custom type =>
    cases elem' with
    | base base' => cases heq
    | custom type' =>
      have hname : type'.name = type.name := by
        simp only [ElemType.mapCustom, TypeName.unbind, ElemType.custom.injEq, TypeName.mk.injEq,
          and_true] at heq
        exact heq
      unfold ElemType.Spelt at h ⊢
      cases hlookup : scalars.lookup name with
      | some found => simp [hlookup] at h
      | none =>
        simp only [hlookup, ElemType.custom.injEq, exists_eq_left'] at h ⊢
        rw [hname]
        exact h

theorem FieldType.Spelt.of_unbind
    {type' : FieldType} (h : type.Spelt spelling)
    (heq : type'.mapCustom (·.unbind) = type.mapCustom (·.unbind)) : type'.Spelt spelling := by
  cases h with
  | single h =>
    cases type' <;> simp only [FieldType.mapCustom, FieldType.single.injEq, reduceCtorEq] at heq
    exact .single (h.of_unbind heq)
  | list h =>
    cases type' <;> simp only [FieldType.mapCustom, FieldType.list.injEq, reduceCtorEq] at heq
    exact .list (h.of_unbind heq)
  | map hkey h =>
    cases type' <;> simp only [FieldType.mapCustom, FieldType.map.injEq, reduceCtorEq] at heq
    obtain ⟨rfl, heq⟩ := heq
    exact .map hkey (h.of_unbind heq)

open Idl.Parser in
theorem Protobuf.written_of_parse
    {config : ParseConfig} {source : String} {schema : Schema}
    (h : Dialect.protobuf.parse config source = .ok schema) :
    ∃ tokens, Lexer.tokenize source.toList = .ok tokens ∧
      ∀ path message, schema.message? path = some message →
        ∀ field ∈ message.fields, Written (significant tokens) field := by
  obtain ⟨tokens, htokens⟩ : ∃ tokens, Lexer.tokenize source.toList = .ok tokens := by
    simp only [Dialect.parse, bind_eq_ok_iff] at h
    exact ⟨h.choose, h.choose_spec.1⟩
  let T : Traits := ⟨fun _ => True, fun _ => True, fun _ => True, fun _ => True,
    Written (significant tokens)⟩
  have hT : T.Settled :=
    ⟨by simp [T], by simp [T], fun _ _ hfield heq _ => hfield.of_undocumented heq⟩
  have hschema : schema.Has T := by
    refine Dialect.has_of_parse h hT (by simp [T]) (by simp [T]) fun tokens' htokens' =>
      ⟨?_, by simp [T]⟩
    cases htokens'.symm.trans htokens
    exact ⟨.any _, ⟨.any _, .all fun _ _ _ => trivial⟩, within_written _, .any _, trivial, .any _,
      .any _⟩
  exact ⟨tokens, htokens, fun path message hmessage => (hschema.of_message? hmessage).2.2.2⟩

/-- A field of the protobuf notation without written options is printed with the type that was
written for it, scalar by scalar, exactly when its scalars agree on their hints; only those of a map
can fail to. -/
theorem Proto.typeName_eq_written_iff
    {config : ParseConfig} {source : String} {schema : Schema}
    (h : Dialect.protobuf.parse config source = .ok schema) {path : MessagePath} {message : Message}
    (hmessage : schema.message? path = some message) {field : Field}
    (hfield : field ∈ message.fields) :
    ∃ tokens before spelled spelling equals after,
      Lexer.tokenize source.toList = .ok tokens ∧
      significant tokens = before ++ (spelled ++
        ⟨.identifier field.name.value, field.name.span⟩ :: ⟨.punct .equals, equals⟩ ::
          ⟨.integer field.tag.value, field.tag.span⟩ :: after) ∧
      spelled.map (·.value) = Spelling.tokens spelling ∧
      (after.head?.map (·.value) ≠ some (.punct .leftBracket) →
        ∀ (bound : Field) (copy : MessageRef → Option MessageDesc), bound.unbind = field.unbind →
          (Proto.typeName (bound.describe copy) = spelling.text ↔ spelling.Agrees)) := by
  obtain ⟨tokens, htokens, hwritten⟩ := Protobuf.written_of_parse h
  obtain ⟨before, spelled, spelling, equals, after, hsource, hspelled, hspelt, hoptions⟩ :=
    hwritten path message hmessage field hfield
  refine ⟨tokens, before, spelled, spelling, equals, after, htokens, hsource, hspelled, ?_⟩
  intro hafter bound copy hbound
  have htype := congrArg Field.type hbound
  have hbound' : bound.unbind.options = field.unbind.options := congrArg Field.options hbound
  change bound.options = field.options at hbound'
  rw [Proto.typeName_describe, hbound']
  exact (hspelt.of_unbind htype).printed_eq_iff (hoptions hafter _) (hoptions hafter _)

/-- A map whose two scalars fold their sign, nested in a message. -/
def foldedSigns : String :=
  "package p; message m \x7b message n \x7b optional map<sint64, sint32> f = 7; \x7d \x7d"

theorem Proto.typeName_eq_written_iff_foldedSigns :
    ∃ schema message field tokens before spelled spelling equals after,
      Dialect.protobuf.parse ⟨false⟩ foldedSigns = .ok schema ∧
      schema.message? [0, 0] = some message ∧ field ∈ message.fields ∧
      Lexer.tokenize foldedSigns.toList = .ok tokens ∧
      significant tokens = before ++ (spelled ++
        ⟨.identifier field.name.value, field.name.span⟩ :: ⟨.punct .equals, equals⟩ ::
          ⟨.integer field.tag.value, field.tag.span⟩ :: after) ∧
      spelled.map (·.value) = Spelling.tokens spelling ∧
      (after.head?.map (·.value) ≠ some (.punct .leftBracket) →
        ∀ (bound : Field) (copy : MessageRef → Option MessageDesc), bound.unbind = field.unbind →
          (Proto.typeName (bound.describe copy) = spelling.text ↔ spelling.Agrees)) := by
  have hfields : (Dialect.protobuf.parse ⟨false⟩ foldedSigns).toOption.map (fun schema =>
      (schema.message? [0, 0]).map (·.fields.length)) = some (some 1) := by
    decide +kernel
  cases hparse : Dialect.protobuf.parse ⟨false⟩ foldedSigns with
  | error faults => simp [hparse, Except.toOption] at hfields
  | ok schema =>
    obtain ⟨message, hmessage, hlength⟩ : ∃ message, schema.message? [0, 0] = some message ∧
        message.fields.length = 1 := by
      simpa [hparse, Except.toOption] using hfields
    obtain ⟨field, hfield⟩ := length_eq_one_iff.1 hlength
    have hmem : field ∈ message.fields := by simp [hfield]
    obtain ⟨tokens, before, spelled, spelling, equals, after, h⟩ :=
      Proto.typeName_eq_written_iff hparse hmessage hmem
    exact ⟨schema, message, field, tokens, before, spelled, spelling, equals, after, rfl, hmessage,
      hmem, h⟩

/-- A map whose key folds its sign and whose value does not is printed as if both did. -/
theorem Proto.typeName_of_mixed_signs :
    (Dialect.protobuf.parse ⟨false⟩
      "package p; message m \x7b map<sint32, int32> f = 1; \x7d").toOption.map (fun schema =>
        let (program, clash) := (Program.ofSchema "a.proto" schema).checkDefinitions ⟨false⟩
        (clash, (program.describe [program]).messages.map (·.fields.map typeName))) =
      some (none, [["map<sint32, sint32>"]]) := by
  decide +kernel

end Idl

import Idl.Proofs.Grammar.Parts
import Idl.Proofs.Token.Printing
import Mathlib.Data.List.TakeWhile

/-!
# Names and comments of a schema

The names of a schema that was read are names wherever they are written again, and its comments are
comments: both were tokens of the text.  The names of types were also told apart from the words that
open a container, so they cannot be taken for one.
-/

namespace Idl

open Idl.Parser List

variable {type : TypeName} {source : List Char} {words : List String} {elem : WrittenElem}
  {tokens : List (Located Token)}

/-! ## Tokens -/

namespace Lexer

/-- The characters of a comment. -/
def IsComment (text : List Char) : Prop := ∃ body, text = '/' :: '/' :: body ∧ '\n' ∉ body

theorem identTail_identTail (cs : List Char) :
    identTail (identTail cs).1 = ((identTail cs).1, []) := by
  fun_induction identTail cs with
  | case1 | case3 c hc | case6 c d cs hc hd => rfl
  | case2 c hc => simp [identTail, hc]
  | case4 c d cs hc read tail hread ih =>
    rw [hread] at ih
    cases read with
    | nil => simp [identTail, hc]
    | cons e read => simp [identTail, hc, ih]
  | case5 c d cs hc hd read tail hread ih =>
    rw [hread] at ih
    simp [identTail, hc, hd, ih]

theorem dropEndWhile_cons {p : Char → Bool} {c : Char} (hc : p c = false) (cs : List Char) :
    Text.dropEndWhile p (c :: cs) = c :: Text.dropEndWhile p cs := by
  simp only [Text.dropEndWhile, reverse_cons, dropWhile_append]
  split <;> simp_all

theorem isComment_commentText (cs : List Char) :
    IsComment (commentText ('/' :: ('/' :: cs).takeWhile (· != '\n'))).toList := by
  refine ⟨Text.dropEndWhile (· == '\r') (cs.takeWhile (· != '\n')), ?_, ?_⟩
  · rw [commentText, String.toList_ofList, takeWhile_cons, if_pos (by decide),
      dropEndWhile_cons (by decide), dropEndWhile_cons (by decide)]
  · intro hmem
    have hsub : '\n' ∈ cs.takeWhile (· != '\n') := by
      have := (dropWhile_suffix _).subset (mem_reverse.1 hmem)
      exact mem_reverse.1 this
    exact absurd (mem_takeWhile_imp hsub) (by decide)

end Lexer

/-- The token is written so.  Of trivia and of strings nothing is told but that comments are
comments. -/
def Token.Spells (text : List Char) : Token → Prop
  | identifier name => name.toList = text ∧ Lexer.IsName text
  | integer value => ∃ l : Lexer.Literal, l.text = text ∧ l.value = value.toInt
  | comment body => Lexer.IsComment body.toList
  | _ => True

/-- The name of an identifier is a name, and the text of a comment a comment. -/
def Token.WellFormed : Token → Prop
  | identifier name => Lexer.IsName name.toList
  | comment body => Lexer.IsComment body.toList
  | _ => True

namespace Lexer

theorem Cuts.spells
    {c : Char} {cs text rest : List Char} {token : Token}
    (h : Cuts c cs (.ok token) text rest) :
    token.Spells text := by
  cases h with
  | comment hslash hanother =>
    obtain ⟨cs, rfl⟩ := head?_eq_some_iff.1 hanother
    subst hslash
    exact isComment_commentText cs
  | integer hn hvalue =>
    obtain ⟨l, hread, hworth⟩ := exists_literal_of_numeral? hn
    exact ⟨l, hread, hworth.trans (toInt_of_int64? hvalue).symm⟩
  | identifier hident => exact ⟨String.toList_ofList, hident, identTail_identTail cs⟩
  | string | punct | newline | blank => trivial

theorem exists_spelling_of_tokenize
    (h : tokenize source = .ok tokens) {t : Located Token} (ht : t ∈ tokens) :
    ∃ before text behind, source = before ++ text ++ behind ∧ t.value.Spells text ∧
      t.span = .between (byteSize before) (byteSize before + byteSize text) := by
  obtain ⟨before, behind, piece, hpiece, hsource, hvalue, hspan⟩ := exists_piece_of_tokenize h ht
  obtain ⟨c, ds, rfl⟩ := exists_cut_of_mem_pieces hpiece
  exact ⟨before, _, behind, hsource, (cuts_of_cut hvalue).spells, hspan⟩

theorem wellFormed_of_tokenize (h : tokenize source = .ok tokens) :
    ∀ token ∈ tokens, token.value.WellFormed := by
  intro token htoken
  obtain ⟨_, text, _, -, hspells, -⟩ := exists_spelling_of_tokenize h htoken
  cases hvalue : token.value with
  | identifier name =>
    rw [hvalue] at hspells
    obtain ⟨rfl, hname⟩ := hspells
    exact hname
  | comment body =>
    rw [hvalue] at hspells
    exact hspells
  | _ => trivial

end Lexer

/-! ## Parts of a schema -/

/-- The comment lines are comments. -/
def Doc.Lexical (doc : Doc) : Prop := ∀ line ∈ doc.lines, Lexer.IsComment line.toList

theorem Doc.lexical_none {doc : Doc} (h : doc = .none) : doc.Lexical := by
  subst h
  intro line hline
  cases hline

/-- A type name is a name, and none of the given words. -/
def ElemType.Lexical (words : List String) : ElemType → Prop
  | base _ => True
  | custom type => Lexer.IsName type.name.value.toList ∧ type.name.value ∉ words

/-- The names in a field type are names, and no word that opens a container stands where it would
open one. -/
def FieldType.Lexical : FieldType → Prop
  | single e => e.Lexical ["map"]
  | list e => e.Lexical []
  | map key e => key.isMapKey ∧ e.Lexical ["map", "repeated"]

/-- What is true of the parts of every schema that was read. -/
def Traits.lexical : Traits where
  name name := Lexer.IsName name.toList
  doc := Doc.Lexical
  import_ item := item.doc.Lexical
  enum enum := Lexer.IsName enum.name.value.toList ∧ enum.doc.Lexical ∧
    ∀ value ∈ enum.values, Lexer.IsName value.name.value.toList ∧ value.doc.Lexical
  field field := Lexer.IsName field.name.value.toList ∧ field.doc.Lexical ∧
    (1 ≤ field.tag.value ∧ field.tag.value ≤ 255) ∧ field.type.Lexical

theorem Traits.settled_lexical : Traits.lexical.Settled where
  import_ item item' _ _ hdoc := hdoc
  enum enum enum' h heq hdoc hdocs := by
    simp only [EnumDef.relabel, Located.relabel_undocumented, EnumDef.mk.injEq] at heq
    obtain ⟨hname, -, hvalues, -⟩ := heq
    refine ⟨hname ▸ h.1, hdoc, fun value hvalue => ⟨?_, hdocs value hvalue⟩⟩
    obtain ⟨original, horiginal, heq⟩ := exists_mem_of_map_eq hvalues hvalue
    exact congrArg (·.value) (EnumValue.mk.inj heq).1 ▸ (h.2.2 original horiginal).1
  field field field' h heq hdoc := by
    simp only [Field.relabel, FieldType.relabel_undocumented, Located.relabel_undocumented,
      Field.mk.injEq] at heq
    obtain ⟨hname, htag, htype, -, -⟩ := heq
    exact ⟨hname ▸ h.1, hdoc, htag ▸ h.2.2.1, htype ▸ h.2.2.2⟩

section Grammars

variable {source tokens rest : List (Located Token)}
  (hsource : ∀ t ∈ source, t.value.WellFormed)

include hsource

theorem within_identifier :
    identifier.Within source fun name => Lexer.IsName name.value.toList :=
  Within.identifier.mono fun _ hmem => hsource _ hmem

/-! ### Fields -/

omit hsource in
/-- A type name that is read is the next identifier. -/
theorem Native.name_of_elemType
    (h : elemType tokens = .ok (elem, rest)) (htype : elem.type = .custom type) :
    tokens.head? = some ⟨.identifier type.name.value, type.name.span⟩ ∧
      elem.span = type.name.span := by
  simp only [elemType, bind_ok_iff, atPunct_ok_iff] at h
  obtain ⟨_, _, ⟨rfl, rfl⟩, h⟩ := h
  split at h
  next =>
    simp only [bind_ok_iff, pure_ok_iff] at h
    obtain ⟨_, _, _, _, _, _, _, _, _, rfl, rfl⟩ := h
    cases htype
  next =>
    simp only [bind_ok_iff, identifier_ok_iff] at h
    obtain ⟨name, _, rfl, h⟩ := h
    cases hbase : BaseType.ofName? name.value with
    | some base =>
      simp only [hbase] at h
      obtain ⟨rfl, rfl⟩ := pure_ok_iff.1 h
      cases htype
    | none =>
      simp only [hbase] at h
      split at h
      next =>
        obtain ⟨rfl, rfl⟩ := pure_ok_iff.1 h
        cases htype
        exact ⟨rfl, rfl⟩
      next => cases h

omit hsource in
theorem Native.head_of_elemType
    (h : elemType tokens = .ok (elem, rest)) (htype : elem.type = .custom type) :
    tokens.head?.map (·.value) = some (.identifier type.name.value) :=
  congrArg (Option.map (·.value)) (name_of_elemType h htype).1

omit hsource in
theorem Protobuf.head_of_elemType
    (h : elemType tokens = .ok (elem, rest)) (htype : elem.type = .custom type) :
    tokens.head?.map (·.value) = some (.identifier type.name.value) := by
  simp only [elemType, bind_ok_iff, identifier_ok_iff] at h
  obtain ⟨name, _, rfl, h⟩ := h
  cases hscalar : scalars.lookup name.value with
  | some scalar =>
    simp only [hscalar] at h
    obtain ⟨rfl, rfl⟩ := pure_ok_iff.1 h
    cases htype
  | none =>
    simp only [hscalar] at h
    obtain ⟨rfl, rfl⟩ := pure_ok_iff.1 h
    cases htype
    rfl

/-- A type name that is the next identifier is a name, and none of the words that are not next. -/
theorem ElemType.lexical_of_head
    {elem : ElemType} (htokens : tokens <:+ source) (hhead : ∀ type, elem = .custom type →
      tokens.head?.map (·.value) = some (.identifier type.name.value))
    (hwords : ∀ word ∈ words, tokens.head?.map (·.value) ≠ some (.identifier word)) :
    elem.Lexical words := by
  cases elem with
  | base base => trivial
  | custom type =>
    have htype := hhead type rfl
    refine ⟨?_, fun hword => hwords _ hword htype⟩
    obtain ⟨token, htoken, hvalue⟩ := Option.map_eq_some_iff.1 htype
    have hmem : token ∈ source := htokens.subset (mem_of_mem_head? htoken)
    have hformed := hsource token hmem
    rwa [hvalue] at hformed

theorem FieldType.Around.lexical
    {elem : PlainParser WrittenElem}
    (helem : ∀ tokens found rest, elem tokens = .ok (found, rest) → ∀ type,
      found.type = .custom type → tokens.head?.map (·.value) = some (.identifier type.name.value))
    (htokens : tokens <:+ source) {type : FieldType} (h : type.Around elem tokens words)
    (hwords : type.openers ⊆ words) : type.Lexical := by
  obtain ⟨hkey, found, inner, after, heq, hinner, hfound, hnext⟩ := h
  have hlexical : type.elem.Lexical type.openers := by
    refine ElemType.lexical_of_head hsource (hinner.trans htokens) (fun name hname => ?_)
      fun word hword => hnext word (hwords hword)
    exact helem inner found after hfound name (heq ▸ hname)
  cases type with
  | single elem | list elem => exact hlexical
  | map key elem => exact ⟨hkey key elem rfl, hlexical⟩

theorem Native.within_lexicalField : Native.field.Within source Traits.lexical.field := by
  refine (within_field (Q := FieldType.Lexical) (within_identifier hsource) .fieldTag
    (fun tokens type rest htokens h => ?_) (.any _)).mono fun f hf =>
      ⟨hf.1.1, Doc.lexical_none hf.1.2.2.2, hf.1.2.1, hf.1.2.2.1⟩
  refine (around_of_fieldType h).lexical hsource (fun _ _ _ h _ => head_of_elemType h) htokens ?_
  cases type <;> simp [FieldType.openers]

theorem Protobuf.within_lexicalField : Protobuf.field.Within source Traits.lexical.field := by
  refine (within_field (Q := FieldType.Lexical) (within_identifier hsource)
    fun repeated tokens found rest htokens h => ?_).mono fun f hf =>
      ⟨hf.1, Doc.lexical_none hf.2.2.2, hf.2.1, hf.2.2.1⟩
  exact (around_of_fieldType h).lexical hsource (fun _ _ _ h _ => head_of_elemType h) htokens
    (List.Subset.refl _)

theorem Dialect.ensures_lexical (config : ParseConfig) (dialect : Dialect) :
    dialect.Ensures config source Traits.lexical.facts := by
  cases dialect with
  | native =>
    exact ⟨Native.within_declaredName (within_identifier hsource), .any _,
      Native.within_lexicalField hsource, .any _, .any _, .any _, .any _⟩
  | protobuf =>
    exact ⟨within_identifier hsource, ⟨.any _, .all fun _ _ _ => trivial⟩,
      Protobuf.within_lexicalField hsource, .any _, trivial, .any _, .any _⟩

end Grammars

/-- The parts of a schema that was read are made of names and comments. -/
theorem Dialect.lexical_of_parse
    {dialect : Dialect} {config : ParseConfig} {source : String} {schema : Schema}
    (h : dialect.parse config source = .ok schema) : schema.Has Traits.lexical := by
  refine dialect.has_of_parse h Traits.settled_lexical (fun item hitem => ?_) (fun enum henum => ?_)
    fun tokens htokens => ?_
  · exact Doc.lexical_none hitem.doc
  · exact ⟨henum.name, Doc.lexical_none henum.doc, fun value hvalue =>
      (henum.values value hvalue).imp_right Doc.lexical_none⟩
  · have htokens := Lexer.wellFormed_of_tokenize htokens
    refine ⟨dialect.ensures_lexical (fun t ht => htokens t (mem_filter.1 ht).1) config,
      fun doc hdoc line hline => ?_⟩
    obtain ⟨span, hmem⟩ := hdoc line (mem_append_left _ hline)
    exact htokens _ hmem

end Idl

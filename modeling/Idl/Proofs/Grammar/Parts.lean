import Idl.Proofs.Grammar.Assembly
import Idl.Proofs.Schema.Distribution
import Idl.Proofs.Schema.Documented

/-!
# Parts of a schema

What is known of names, imports, enums and fields as they are read is known of a schema that was
read from a text: comments come later, and replace nothing but comments.
-/

namespace Idl

open Idl.Parser List

/-! ## What is said of the parts -/

/-- What is said of the names, comments, imports, enums and fields of a schema. -/
structure Traits where
  name : String → Prop
  doc : Doc → Prop
  import_ : Import → Prop
  enum : EnumDef → Prop
  field : Field → Prop

variable {T : Traits}

/-- It is true of the message and of all that is nested in it. -/
def Message.Has (T : Traits) (m : Message) : Prop :=
  ∀ path sub, m.descend path = some sub →
    T.name sub.name.value ∧ T.doc sub.doc ∧ (∀ enum ∈ sub.enums, T.enum enum) ∧
      ∀ field ∈ sub.fields, T.field field

theorem Message.has_iff {m : Message} :
    m.Has T ↔ (T.name m.name.value ∧ T.doc m.doc ∧ (∀ enum ∈ m.enums, T.enum enum) ∧
      ∀ field ∈ m.fields, T.field field) ∧ ∀ sub ∈ m.messages, sub.Has T :=
  Message.forall_descend_iff

/-- It is true of the whole schema, methods and projects apart. -/
structure Schema.Has (T : Traits) (schema : Schema) : Prop where
  package : T.name schema.package.name.value
  packageDoc : T.doc schema.package.doc
  imports : ∀ item ∈ schema.imports, T.import_ item
  enums : ∀ enum ∈ schema.enums, T.enum enum
  messages : ∀ message ∈ schema.messages, message.Has T

theorem Schema.Has.of_message?
    {schema : Schema} (h : schema.Has T) {path : MessagePath} {m : Message}
    (hm : schema.message? path = some m) :
    T.name m.name.value ∧ T.doc m.doc ∧ (∀ enum ∈ m.enums, T.enum enum) ∧
      ∀ field ∈ m.fields, T.field field := by
  cases path with
  | nil => cases hm
  | cons i path =>
    obtain ⟨top, htop, hdescend⟩ := Option.bind_eq_some_iff.1 hm
    exact h.messages top (mem_of_getElem? htop) path m hdescend

/-- It is true of what the statement declares. -/
def MessageStatement.Has (T : Traits) : MessageStatement → Prop
  | field f => T.field f
  | message m => m.Has T
  | enum e => T.enum e
  | option _ => True

/-! ## Comments -/

/-- The traits ask of comments only that each of them has their own trait. -/
structure Traits.Settled (T : Traits) : Prop where
  import_ : ∀ item item', T.import_ item →
    item'.relabel .undocumented = item.relabel .undocumented → T.doc item'.doc → T.import_ item'
  enum : ∀ enum enum', T.enum enum → enum'.relabel .undocumented = enum.relabel .undocumented →
    T.doc enum'.doc → (∀ value ∈ enum'.values, T.doc value.doc) → T.enum enum'
  field : ∀ field field', T.field field →
    field'.relabel .undocumented = field.relabel .undocumented → T.doc field'.doc → T.field field'

namespace Traits.Settled

variable (hT : T.Settled)

include hT

theorem enums
    {enums enums' : List EnumDef} (h : ∀ enum ∈ enums, T.enum enum)
    (heq : enums'.map (·.relabel .undocumented) = enums.map (·.relabel .undocumented))
    (hdocs : ∀ enum ∈ enums', ∀ entry ∈ enum.documented, T.doc entry.2) :
    ∀ enum ∈ enums', T.enum enum := by
  intro enum' henum'
  obtain ⟨enum, henum, heq⟩ := exists_mem_of_map_eq heq henum'
  have hentries := hdocs enum' henum'
  simp only [EnumDef.documented, EnumValue.documented, forall_mem_cons, forall_mem_append,
    forall_mem_flatMap] at hentries
  exact hT.enum enum enum' (h enum henum) heq hentries.1 fun value hvalue =>
    (hentries.2.1 value hvalue).1

theorem message
    {m m' : Message} (h : m.Has T) (heq : m'.relabel .undocumented = m.relabel .undocumented)
    (hdocs : ∀ entry ∈ m'.documented, T.doc entry.2) : m'.Has T := by
  induction m' using Message.induction_nested generalizing m with
  | h m' ih =>
    rw [Message.relabel_eq, Message.relabel_eq, Message.mk.injEq] at heq
    obtain ⟨hname, -, hfields, hmessages, henums, -⟩ := heq
    obtain ⟨⟨hT', -, hownEnums, hownFields⟩, hsubs⟩ := Message.has_iff.1 h
    rw [Message.documented_eq] at hdocs
    simp only [forall_mem_cons, forall_mem_append, forall_mem_flatMap] at hdocs
    obtain ⟨hdoc, hdocFields, -, hdocEnums, hdocMessages⟩ := hdocs
    refine Message.has_iff.2 ⟨⟨congrArg (·.value) hname ▸ hT', hdoc,
      hT.enums hownEnums henums hdocEnums, fun field' hfield' => ?_⟩, fun sub' hsub' => ?_⟩
    · obtain ⟨field, hfield, heq⟩ := exists_mem_of_map_eq hfields hfield'
      exact hT.field field field' (hownFields field hfield) heq
        (hdocFields field' hfield' _ mem_cons_self)
    · obtain ⟨sub, hsub, heq⟩ := exists_mem_of_map_eq hmessages hsub'
      exact ih sub' hsub' (hsubs sub hsub) heq (hdocMessages sub' hsub')

/-- A schema that differs in comments only has the traits, if its comments have theirs. -/
theorem schema
    {schema schema' : Schema} (h : schema.Has T)
    (heq : schema'.relabel .undocumented = schema.relabel .undocumented)
    (hdocs : ∀ entry ∈ schema'.documented, T.doc entry.2) : schema'.Has T := by
  simp only [Schema.relabel, Schema.mk.injEq, Package.mk.injEq] at heq
  obtain ⟨⟨hpackage, -⟩, himports, -, henums, hmessages, -⟩ := heq
  simp only [Schema.documented, Message.allDocumented_eq_flatMap, forall_mem_cons,
    forall_mem_append, forall_mem_flatMap] at hdocs
  obtain ⟨hdoc, hdocImports, -, hdocEnums, hdocMessages, -⟩ := hdocs
  refine ⟨congrArg (·.value) hpackage ▸ h.package, hdoc, fun item' hitem' => ?_,
    hT.enums h.enums henums hdocEnums, fun m' hm' => ?_⟩
  · obtain ⟨item, hitem, heq⟩ := exists_mem_of_map_eq himports hitem'
    exact hT.import_ item item' (h.imports item hitem) heq
      (hdocImports item' hitem' _ mem_cons_self)
  · obtain ⟨m, hm, heq⟩ := exists_mem_of_map_eq hmessages hm'
    exact hT.message (h.messages m hm) heq (hdocMessages m' hm')

end Traits.Settled

/-! ## Reading -/

/-- The comments come from the comments among the tokens. -/
def Doc.From (tokens : List (Located Token)) (doc : Doc) : Prop :=
  ∀ text ∈ doc.lines ++ doc.tail.toList, ∃ span, ⟨.comment text, span⟩ ∈ tokens

/-- Comments that are attached to a schema were there. -/
theorem Doc.from_of_attachComments
    {source : String} {tokens : List (Located Token)}
    (h : Lexer.tokenize source.toList = .ok tokens) {schema : Schema} {entry : DocEntry}
    (hentry : entry ∈ (schema.attachComments source tokens).documented) : entry.2.From tokens := by
  rw [Schema.documented_attachComments] at hentry
  obtain ⟨node, hnode, rfl⟩ := mem_map.1 hentry
  intro text htext
  simp only [Taken.doc, Option.toList_map, ← map_append, mem_map] at htext
  obtain ⟨comment, hcomment, rfl⟩ := htext
  obtain ⟨tokens', span, htokens', hspan, -⟩ := ((schema.attached_attachedIn h).comment node
    ((mergeSort_perm _ _).mem_iff.2 hnode) comment hcomment).token
  cases h.symm.trans htokens'
  exact ⟨span, hspan⟩

/-- What has to be known of the parts of a schema as they are read. -/
def Traits.facts (T : Traits) : Facts where
  name name := T.name name.value
  option _ := True
  field := T.field
  service _ := True
  project _ := True

/-- What a dialect ensures at the tokens of a text is true of the schema that is read from it. -/
theorem Dialect.has_of_parse
    {dialect : Dialect} {config : ParseConfig} {source : String} {schema : Schema}
    (h : dialect.parse config source = .ok schema) (hT : T.Settled)
    (himport : ∀ item : Import, item.Follows T.facts → T.import_ item)
    (henum : ∀ enum : EnumDef, enum.Follows T.facts → T.enum enum)
    (hensures : ∀ tokens, Lexer.tokenize source.toList = .ok tokens →
      dialect.Ensures config (significant tokens) T.facts ∧ ∀ doc :
    Doc, doc.From tokens → T.doc doc) :
    schema.Has T := by
  simp only [Dialect.parse, bind_eq_ok_iff, mapError_eq_ok_iff, pure_eq_ok_iff] at h
  obtain ⟨tokens, htokens, built, hbuild, rfl⟩ := h
  obtain ⟨hproductions, hdocs⟩ := hensures tokens htokens
  have hnone : ∀ {doc : Doc}, doc = .none → T.doc doc := by
    rintro _ rfl
    refine hdocs _ ?_
    rintro _ ⟨⟩
  have hfollows := Dialect.follows_of_build hbuild hproductions
  have hbuilt : built.Has T :=
    ⟨hfollows.package, hnone hfollows.packageDoc, fun item hitem => himport item
      (hfollows.imports item hitem), fun enum hmem => henum enum (hfollows.enums enum hmem),
      fun m hm path sub hsub =>
        have hsub := hfollows.messages m hm path sub hsub
        ⟨hsub.name, hnone hsub.doc, fun enum hmem => henum enum (hsub.enums enum hmem),
          hsub.fields⟩⟩
  exact hT.schema hbuilt (built.undocumented_withDocs _) fun entry hentry =>
    hdocs _ (Doc.from_of_attachComments htokens hentry)

end Idl

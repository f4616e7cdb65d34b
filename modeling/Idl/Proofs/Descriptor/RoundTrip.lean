import Idl.Proofs.Analysis.Schedule
import Idl.Proofs.Descriptor.Reparsing

/-!
# Printed programs are read again

What is printed for a program, now or from a descriptor that was kept, is read as the same package,
imports, enums and messages.  The exceptions are names that the protobuf notation takes for
something else, and texts that it cannot quote.
-/

namespace Idl

open List

variable {original read : Schema} {options : OptionsDesc} {how : Redraw} {schema : Schema}
  {source : String} {T : Traits} {dialect : Dialect} {config : ParseConfig}

/-! ## Shapes -/

/-- How many values a field holds, and whether it holds them under keys. -/
inductive Container
  | single
  | list
  | map
deriving DecidableEq, Repr

def FieldType.container : FieldType → Container
  | single _ => .single
  | list _ => .list
  | map _ _ => .map

/-- The name, the tag and the container of a field. -/
def Field.shape (field : Field) : String × Int64 × Container :=
  (field.name.value, field.tag.value, field.type.container)

/-- The name of an enum, and the names and numbers of its values. -/
def EnumDef.shape (enum : EnumDef) : String × List (String × Int64) :=
  (enum.name.value, enum.values.map fun value => (value.name.value, value.number))

/-- What a message declares, at all levels. -/
inductive MessageShape
  | mk (name : String) (fields : List (String × Int64 × Container))
      (messages : List MessageShape) (enums : List (String × List (String × Int64)))

namespace Message

mutual

def shape : Message → MessageShape
  | ⟨name, _, fields, messages, enums, _⟩ =>
    .mk name.value (fields.map (·.shape)) (shapes messages) (enums.map (·.shape))

def shapes : List Message → List MessageShape
  | [] => []
  | message :: messages => message.shape :: shapes messages

end

theorem shapes_eq_map (messages : List Message) : shapes messages = messages.map (·.shape) := by
  induction messages with
  | nil => rfl
  | cons message messages ih => rw [shapes, ih, map_cons]

theorem shape_eq (m : Message) :
    m.shape = .mk m.name.value (m.fields.map (·.shape)) (m.messages.map (·.shape))
      (m.enums.map (·.shape)) := by
  obtain ⟨name, doc, fields, messages, enums, options⟩ := m
  rw [shape, shapes_eq_map]

theorem shape_redraw
    (hhow : how.KeepsNames) (hfield : ∀ field, (how.field field).shape = field.shape)
    (henum : ∀ enum, (how.enum enum).shape = enum.shape) (m : Message) :
    (m.redraw how).shape = m.shape := by
  induction m using induction_nested with
  | h m ih =>
    have hmessages : (m.messages.map (·.redraw how)).map (·.shape) = m.messages.map (·.shape) := by
      rw [map_map]
      exact map_congr_left ih
    rw [redraw_eq, shape_eq, shape_eq m]
    simp only [hmessages, map_map, Function.comp_def, hfield, henum, hhow.name]

end Message

theorem EnumDef.shape_bare (enum : EnumDef) : enum.bare.shape = enum.shape := by
  simp only [shape, bare, Located.unplaced, map_map, Function.comp_def, EnumValue.bare]

theorem EnumDef.shape_reread (enum : EnumDef) : enum.reread.shape = enum.shape := enum.shape_bare

theorem Field.shape_bare (field : Field) : field.bare.shape = field.shape := by
  obtain ⟨name, tag, type, options, doc⟩ := field
  cases type <;> rfl

theorem Field.shape_reread (field : Field) : field.reread.shape = field.shape := by
  obtain ⟨name, tag, type, options, doc⟩ := field
  cases type <;> rfl

theorem Schema.shapes_of_bare (h : read.bare = original.reread options) :
    read.enums.map (·.shape) = original.enums.map (·.shape) ∧
      read.messages.map (·.shape) = original.messages.map (·.shape) := by
  have henums : read.enums.map (·.bare) = original.enums.map (·.reread) := congrArg Schema.enums h
  have hmessages : read.messages.map (·.redraw .bare) = original.messages.map (·.redraw .reread) :=
    congrArg Schema.messages h
  have henums' := congrArg (List.map (·.shape)) henums
  have hmessages' := congrArg (List.map (·.shape)) hmessages
  simp only [map_map, Function.comp_def, EnumDef.shape_bare, EnumDef.shape_reread,
    Message.shape_redraw Redraw.keepsNames_bare Field.shape_bare EnumDef.shape_bare,
    Message.shape_redraw Redraw.keepsNames_reread Field.shape_reread EnumDef.shape_reread]
    at henums' hmessages'
  exact ⟨henums', hmessages'⟩

/-! ## What was written -/

theorem Field.reread_unbind (field : Field) : field.unbind.reread = field.reread := by
  obtain ⟨name, tag, type, options, doc⟩ := field
  rcases type with (e | e | ⟨key, e⟩) <;> cases e <;> rfl

theorem Message.redraw_unbind
    (h : ∀ field : Field, how.field field.unbind = how.field field) (m : Message) :
    m.unbind.redraw how = m.redraw how := by
  induction m using induction_nested with
  | h m ih =>
    have hmessages : (m.messages.map (·.unbind)).map (·.redraw how) =
        m.messages.map (·.redraw how) := by
      rw [map_map]
      exact map_congr_left ih
    have hfields : (m.fields.map (·.unbind)).map how.field = m.fields.map how.field := by
      rw [map_map]
      exact map_congr_left fun field _ => h field
    rw [unbind_eq, redraw_eq, redraw_eq how m]
    simp only [hmessages, hfields]

theorem Message.redraw_reread_unbind (m : Message) :
    m.unbind.redraw .reread = m.redraw .reread :=
  m.redraw_unbind Field.reread_unbind

namespace Schema

/-- The schema as it is written, as far as it is printed: without bindings and without options. -/
def written (schema : Schema) : Schema where
  package := schema.package
  imports := schema.imports.map (·.forget)
  options := []
  enums := schema.enums
  messages := schema.messages.map (·.unbind)
  services := []
  projects := []

/-- What imports, options and type names are bound or set to does not show. -/
theorem written_congr
    {schema' : Schema} (hpackage : schema'.package = schema.package)
    (himports : schema'.imports.map (·.forget) = schema.imports.map (·.forget))
    (henums : schema'.enums = schema.enums)
    (hmessages : schema'.messages.map (·.unbind) = schema.messages.map (·.unbind)) :
    schema'.written = schema.written := by
  simp only [written, hpackage, himports, henums, hmessages]

theorem reread_written (options : OptionsDesc) (schema : Schema) :
    schema.written.reread options = schema.reread options := by
  simp only [reread, written, map_map, Function.comp_def, Message.redraw_reread_unbind]
  rfl

end Schema

/-- The traits do not depend on what imports and type names are bound to. -/
structure Traits.Unbound (T : Traits) : Prop where
  import_ : ∀ item, T.import_ item.forget ↔ T.import_ item
  field : ∀ field, T.field field.unbind ↔ T.field field

theorem Message.has_unbind (hT : T.Unbound) (m : Message) : m.unbind.Has T ↔ m.Has T := by
  induction m using induction_nested with
  | h m ih =>
    have hfields : (∀ field ∈ m.fields.map (·.unbind), T.field field) ↔
        ∀ field ∈ m.fields, T.field field := by
      simp only [forall_mem_map, hT.field]
    have hmessages : (∀ sub ∈ m.messages.map (·.unbind), sub.Has T) ↔
        ∀ sub ∈ m.messages, sub.Has T := by
      simp only [forall_mem_map]
      exact forall₂_congr ih
    rw [has_iff, has_iff (m := m), unbind_eq]
    exact and_congr (and_congr_right fun _ => and_congr_right fun _ => and_congr_right fun _ =>
      hfields) hmessages

theorem Schema.has_written_iff (hT : T.Unbound) (schema : Schema) :
    schema.written.Has T ↔ schema.Has T := by
  have himports : (∀ item ∈ schema.imports.map (·.forget), T.import_ item) ↔
      ∀ item ∈ schema.imports, T.import_ item := by
    simp only [forall_mem_map, hT.import_]
  have hmessages : (∀ m ∈ schema.messages.map (·.unbind), m.Has T) ↔
      ∀ m ∈ schema.messages, m.Has T := by
    simp only [forall_mem_map, Message.has_unbind hT]
  constructor
  · exact fun h => ⟨h.package, h.packageDoc, himports.1 h.imports, h.enums, hmessages.1 h.messages⟩
  · exact fun h => ⟨h.package, h.packageDoc, himports.2 h.imports, h.enums, hmessages.2 h.messages⟩

theorem Traits.unbound_lexical : Traits.lexical.Unbound where
  import_ _ := Iff.rfl
  field field := by
    obtain ⟨name, tag, type, options, doc⟩ := field
    rcases type with (e | e | ⟨key, e⟩) <;> cases e <;> exact Iff.rfl

theorem Traits.unbound_printable : Traits.printable.Unbound where
  import_ _ := Iff.rfl
  field field := by
    obtain ⟨name, tag, type, options, doc⟩ := field
    rcases type with (e | e | ⟨key, e⟩) <;> cases e <;> exact Iff.rfl

/-! ## Kept descriptors -/

/-- What is printed for the program, now or from a descriptor that was kept, is a schema that was
read and is written like that of the program. -/
structure Program.Kept (program : Program) : Prop where
  lexical : program.schema.Has .lexical
  descriptor : ∀ desc, program.descriptor = some desc → ∃ (old : Program) (arena : Arena),
    desc = old.describe arena ∧ old.file = program.file ∧
      old.schema.written = program.schema.written

namespace Program.Kept

variable {program program' : Program}

theorem exists_describe (h : program.Kept) (arena : Arena) :
    ∃ (old : Program) (arena' : Arena), program.fileDesc arena = old.describe arena' ∧
      old.file = program.file ∧ old.schema.written = program.schema.written := by
  cases hdesc : program.descriptor with
  | none => exact ⟨program, arena, by rw [fileDesc, hdesc, Option.getD_none], rfl, rfl⟩
  | some desc =>
    obtain ⟨old, arena', hold⟩ := h.descriptor desc hdesc
    exact ⟨old, arena', by rw [fileDesc, hdesc, Option.getD_some, hold.1], hold.2⟩

theorem of_written
    (h : program.Kept) (hfile : program'.file = program.file)
    (hwritten : program'.schema.written = program.schema.written)
    (hdescriptor : program'.descriptor = program.descriptor) : program'.Kept := by
  constructor
  · rw [← Schema.has_written_iff Traits.unbound_lexical, hwritten,
      Schema.has_written_iff Traits.unbound_lexical]
    exact h.lexical
  · rw [hfile, hwritten, hdescriptor]
    exact h.descriptor

theorem of_parse (h : dialect.parse config source = .ok schema) (file : String) :
    (Program.ofSchema file schema).Kept :=
  ⟨Dialect.lexical_of_parse h, nofun⟩

end Program.Kept

namespace Arena

variable {arena : Arena}

theorem forall_mem_update
    {P : Program → Prop} {id : ProgramId} {change : Program → Program}
    (h : ∀ program ∈ arena, P program)
    (hchange : ∀ program ∈ arena, P program → P (change program)) :
    ∀ program ∈ arena.update id change, P program := by
  intro program hprogram
  unfold update at hprogram
  split at hprogram
  next old hold =>
    have hmem := mem_of_getElem? hold
    rcases mem_or_eq_of_mem_set hprogram with hprogram | rfl
    · exact h program hprogram
    · exact hchange old hmem (h old hmem)
  next => exact h program hprogram

theorem kept_after (h : ∀ program ∈ arena, program.Kept) (pass : Pass) :
    ∀ program ∈ arena.after pass, program.Kept := by
  cases pass with
  | load file dialect config source =>
    rw [after]
    split
    next schema hparse =>
      intro program hprogram
      rcases mem_append.1 hprogram with hprogram | hprogram
      · exact h program hprogram
      · rw [mem_singleton.1 hprogram]
        exact .of_parse hparse file
    next => exact h
  | checkDefinitions config id =>
    refine forall_mem_update h fun program _ hprogram => ?_
    obtain ⟨before, after, -, hchecked, -⟩ := program.exists_checkDefinitions_eq config
    rw [hchecked]
    exact hprogram.of_written rfl rfl rfl
  | applySetting setting id =>
    exact forall_mem_update h fun program _ hprogram => hprogram.of_written rfl rfl rfl
  | bindImport index target id =>
    refine forall_mem_update h fun program _ hprogram => hprogram.of_written rfl ?_ rfl
    have himports : (program.schema.bindImport index target).1.imports.map (·.forget) =
        program.schema.imports.map (·.forget) :=
      congrArg (·.schema.imports) (program.forget_bindImport index target)
    have heq := program.schema.bindImport_eq index target
    exact Schema.written_congr (by rw [heq]) himports (by rw [heq]) (by rw [heq])
  | linkImports id =>
    refine forall_mem_update h fun program _ hprogram => ?_
    split
    next linked hlinked =>
      obtain ⟨references, -, rfl⟩ := Program.linkImports_eq_ok_iff.1 hlinked
      exact hprogram.of_written rfl rfl rfl
    next => exact hprogram
  | bindReferences id =>
    refine forall_mem_update h fun program _ hprogram => ?_
    have hrebound : Rebound Schema.unbind Schema.Each (fun _ => True) program.schema
        ((program.bindReferences arena id).1.schema, (program.bindReferences arena id).2) :=
      Program.rebound (fun _ _ _ => trivial) (fun _ _ _ => trivial) fun _ _ _ _ _ _ => trivial
    have hunbind := hrebound.erase_eq
    obtain ⟨services, messages, heq⟩ := program.bindReferences_eq arena id
    rw [heq] at hunbind ⊢
    refine hprogram.of_written rfl (Schema.written_congr rfl rfl rfl ?_) rfl
    exact congrArg Schema.messages hunbind
  | remember ids =>
    intro program hprogram
    obtain ⟨i, hi, rfl⟩ := mem_mapIdx.1 hprogram
    have hkept := h arena[i] (getElem_mem hi)
    split
    · refine ⟨hkept.lexical, fun desc hdesc => ?_⟩
      obtain rfl : arena[i].fileDesc arena = desc := Option.some.inj hdesc
      exact hkept.exists_describe arena
    · exact hkept

theorem kept_afterAll (passes : List Pass) : ∀ program ∈ afterAll passes, program.Kept := by
  suffices h : ∀ arena : Arena, (∀ program ∈ arena, program.Kept) →
      ∀ program ∈ passes.foldl after arena, program.Kept by
    exact h [] nofun
  induction passes with
  | nil => exact fun arena h => h
  | cons pass passes ih => exact fun arena h => ih _ (kept_after h pass)

end Arena

/-! ## Round trip -/

instance : DecidablePred Traits.printable.import_ :=
  fun item => List.decidableBAll _ (Proto.fileName item.file.value).toList

instance : DecidablePred Traits.printable.enum :=
  fun enum => inferInstanceAs (Decidable (∀ value ∈ enum.values, value.name.value ≠ "option"))

/-- What is printed for the program can be read: its file fits into a comment of one line, the
package for generated code can be quoted, and the parts of its schema are printable. -/
structure Program.Printable (arena : Arena) (program : Program) : Prop where
  file : '\n' ∉ program.file.toList
  goPackage : ∀ package ∈ Proto.goPackage? (program.fileDesc arena).options,
    ∀ c ∈ package.toList, Text.quoteChar c ≠ Text.codePointEscape c
  schema : program.schema.Has .printable

namespace Message

mutual

/-- Whether the parts of a message can be read again. -/
def isPrintable : Message → Bool
  | ⟨_, _, fields, messages, enums, _⟩ =>
    decide (∀ enum ∈ enums, Traits.printable.enum enum) &&
      decide (∀ field ∈ fields, field.type.Plain) && arePrintable messages

def arePrintable : List Message → Bool
  | [] => true
  | message :: messages => message.isPrintable && arePrintable messages

end

theorem arePrintable_eq_all (messages : List Message) :
    arePrintable messages = messages.all (·.isPrintable) := by
  induction messages with
  | nil => rfl
  | cons message messages ih => rw [arePrintable, ih, all_cons]

theorem isPrintable_iff (m : Message) : m.isPrintable ↔ m.Has .printable := by
  induction m using induction_nested with
  | h m ih =>
    obtain ⟨name, doc, fields, messages, enums, options⟩ := m
    have hmessages : arePrintable messages ↔ ∀ sub ∈ messages, sub.Has .printable := by
      rw [arePrintable_eq_all, all_eq_true]
      exact forall₂_congr ih
    rw [has_iff, isPrintable, Bool.and_eq_true, Bool.and_eq_true, hmessages, decide_eq_true_iff,
      decide_eq_true_iff]
    simp only [Traits.printable, true_and]

end Message

theorem Program.printable_iff (arena : Arena) (program : Program) :
    program.Printable arena ↔ '\n' ∉ program.file.toList ∧
      (∀ package ∈ Proto.goPackage? (program.fileDesc arena).options,
        ∀ c ∈ package.toList, Text.quoteChar c ≠ Text.codePointEscape c) ∧
      (∀ item ∈ program.schema.imports, Traits.printable.import_ item) ∧
      (∀ enum ∈ program.schema.enums, Traits.printable.enum enum) ∧
      ∀ message ∈ program.schema.messages, message.isPrintable := by
  simp only [Message.isPrintable_iff]
  constructor
  · rintro ⟨hfile, hpackage, hschema⟩
    exact ⟨hfile, hpackage, hschema.imports, hschema.enums, hschema.messages⟩
  · rintro ⟨hfile, hpackage, himports, henums, hmessages⟩
    exact ⟨hfile, hpackage, trivial, trivial, himports, henums, hmessages⟩

instance (arena : Arena) (program : Program) : Decidable (program.Printable arena) :=
  -- only the characters of the package are gone through
  haveI (package : String) :
      Decidable (∀ c ∈ package.toList, Text.quoteChar c ≠ Text.codePointEscape c) :=
    List.decidableBAll _ _
  decidable_of_iff' _ (program.printable_iff arena)

theorem Program.Kept.exists_parse
    {program : Program} (h : program.Kept) {arena : Arena} (hprintable : program.Printable arena)
    (config : ParseConfig) :
    ∃ read, Dialect.protobuf.parse config (Proto.render (program.fileDesc arena)) = .ok read ∧
      read.bare = program.schema.reread (program.fileDesc arena).options := by
  obtain ⟨old, arena', hdesc, hfile, hwritten⟩ := h.exists_describe arena
  have hgoPackage := hprintable.goPackage
  rw [hdesc] at hgoPackage ⊢
  have hlexical : old.schema.Has .lexical := by
    rw [← Schema.has_written_iff Traits.unbound_lexical, hwritten,
      Schema.has_written_iff Traits.unbound_lexical]
    exact h.lexical
  have hparts : old.schema.Has .printable := by
    rw [← Schema.has_written_iff Traits.unbound_printable, hwritten,
      Schema.has_written_iff Traits.unbound_printable]
    exact hprintable.schema
  have hsays := Proto.says_render hlexical (hfile ▸ hprintable.file) hparts.imports hgoPackage
  obtain ⟨read, hread, hbare⟩ := Protobuf.exists_parse hsays hlexical hparts config
  refine ⟨read, hread, hbare.trans ?_⟩
  rw [← Schema.reread_written, hwritten, Schema.reread_written]

theorem Schema.goPackage?_of_bare (h : read.bare = original.reread options) :
    Proto.goPackage? (OptionDecl.describeAll read.options) = Proto.goPackage? options := by
  have hbare : OptionDecl.describeAll (read.options.map (·.bare)) =
      OptionDecl.describeAll read.options := by
    rw [OptionDecl.describeAll, map_map]
    rfl
  have hoptions : read.options.map (·.bare) = Protobuf.syntaxOption ::
      ((Proto.goPackage? options).map Protobuf.goPackageOption).toList := congrArg Schema.options h
  rw [← hbare, hoptions]
  cases Proto.goPackage? options <;> rfl

theorem Schema.names_of_bare (h : read.bare = original.reread options) :
    read.package.name.value = original.package.name.value ∧
      read.imports.map (·.file.value) =
        original.imports.map fun item => Proto.fileName item.file.value := by
  have hpackage : read.bare.package.name.value = (original.reread options).package.name.value := by
    rw [h]
  have himports : read.imports.map (·.bare) = original.imports.map (·.reread) :=
    congrArg Schema.imports h
  refine ⟨hpackage, ?_⟩
  have hfiles := congrArg (List.map fun item : Import => item.file.value) himports
  simpa only [map_map, Function.comp_def, Import.bare, Import.reread, Located.unplaced]
    using hfiles

/-- What is printed for a program is a text of the protobuf notation, and declares the package, the
imports, the enums and the messages of the program. -/
theorem Proto.render_reads_again
    (passes : List Pass) {id : ProgramId} {program : Program}
    (hprogram : (Arena.afterAll passes)[id]? = some program)
    (hprintable : program.Printable (Arena.afterAll passes)) (config : ParseConfig) :
    let desc := program.fileDesc (Arena.afterAll passes)
    ∃ read, Dialect.protobuf.parse config (render desc) = .ok read ∧
      read.package.name.value = program.package ∧
      goPackage? (OptionDecl.describeAll read.options) = goPackage? desc.options ∧
      read.imports.map (·.file.value) =
        program.schema.imports.map (fun item => fileName item.file.value) ∧
      read.enums.map (·.shape) = program.schema.enums.map (·.shape) ∧
      read.messages.map (·.shape) = program.schema.messages.map (·.shape) := by
  have hkept := Arena.kept_afterAll passes program (mem_of_getElem? hprogram)
  obtain ⟨read, hread, hbare⟩ := hkept.exists_parse hprintable config
  obtain ⟨henums, hmessages⟩ := Schema.shapes_of_bare hbare
  obtain ⟨hpackage, hfiles⟩ := Schema.names_of_bare hbare
  exact ⟨read, hread, hpackage, Schema.goPackage?_of_bare hbare, hfiles, henums, hmessages⟩

/-- A file with nested declarations, a map and an import under another name, whose package for
generated code is set again once its descriptor is kept. -/
def nestedPasses : List Pass :=
  [.load "nested.wproto" .native ⟨false⟩
      ("package demo\n// the root\nimport q \"lib/base.wproto\"\n" ++
        "enum color \x7b red = 3; green \x7d\nmessage tree \x7b\nenum kind \x7b leaf \x7d\n" ++
        "message node \x7b\nmap<int8, q.t> parts = 2\nrepeated node below = 7\n\x7d\n" ++
        "node root = 1\nbinary data = 200\n\x7d\n"),
    .checkDefinitions ⟨false⟩ 0, .applySetting ⟨"proto.gopkg", some (.text "x/\"y\"")⟩ 0,
    .remember [0], .applySetting ⟨"proto.gopkg", some (.text "z")⟩ 0]

theorem Proto.render_reads_again_nested :
    ∃ program read, (Arena.afterAll nestedPasses)[0]? = some program ∧
      program.Printable (Arena.afterAll nestedPasses) ∧
      Dialect.protobuf.parse ⟨false⟩ (render (program.fileDesc (Arena.afterAll nestedPasses))) =
        .ok read ∧
      read.package.name.value = program.package ∧
      goPackage? (OptionDecl.describeAll read.options) =
        goPackage? (program.fileDesc (Arena.afterAll nestedPasses)).options ∧
      read.imports.map (·.file.value) =
        program.schema.imports.map (fun item => fileName item.file.value) ∧
      read.enums.map (·.shape) = program.schema.enums.map (·.shape) ∧
      read.messages.map (·.shape) = program.schema.messages.map (·.shape) := by
  have hdecide : ((Arena.afterAll nestedPasses)[0]?.map fun program =>
      decide (program.Printable (Arena.afterAll nestedPasses))) = some true := by
    decide +kernel
  obtain ⟨program, hprogram, hprintable⟩ := Option.map_eq_some_iff.1 hdecide
  have hprintable := of_decide_eq_true hprintable
  obtain ⟨read, hread⟩ := render_reads_again nestedPasses hprogram hprintable ⟨false⟩
  exact ⟨program, read, hprogram, hprintable, hread⟩

/-- A text that says what is refused where no token has a place is not read. -/
theorem Dialect.parse_ne_ok
    {tokens : List Token} (h : Lexer.Says source.toList tokens)
    (hrefused : (dialect.grammar config (Parser.nowhere tokens)).isOk = false) (read : Schema) :
    dialect.parse config source ≠ .ok read := by
  intro hparse
  obtain ⟨located, hlocated, rfl⟩ := Lexer.exists_tokenize_of_says h
  simp only [Dialect.parse, bind_eq_ok_iff, mapError_eq_ok_iff, pure_eq_ok_iff] at hparse
  obtain ⟨_, hlocated', built, hbuild, -⟩ := hparse
  cases hlocated.symm.trans hlocated'
  obtain ⟨rest, hread⟩ := Parser.run_ok_iff.1 hbuild
  rw [grammar_nowhere, hread] at hrefused
  cases hrefused

/-- A program that has an enum with a value named `option` first, and is checked without a clash, is
printed as a text that is not read. -/
theorem Proto.render_of_option_value :
    ∃ schema program, Dialect.native.parse ⟨false⟩ "package a\nenum e \x7b option = 1 \x7d" =
        .ok schema ∧
      (Program.ofSchema "a.wproto" schema).checkDefinitions ⟨false⟩ = (program, none) ∧
      ∀ read, Dialect.protobuf.parse ⟨false⟩ (render (program.fileDesc [program])) ≠ .ok read := by
  have heval : ((Dialect.native.parse ⟨false⟩
      "package a\nenum e \x7b option = 1 \x7d").toOption.map fun schema =>
        let result := (Program.ofSchema "a.wproto" schema).checkDefinitions ⟨false⟩
        (result.2, schema.imports, schema.options, schema.tokens [])) =
      some (none, [], [],
        [.identifier "syntax", .punct .equals, .text "proto3", .punct .semicolon] ++
        ([.identifier "package", .identifier "a", .punct .semicolon] ++
          [.identifier "enum", .identifier "e", .punct .leftBrace, .identifier "option",
            .punct .equals, .integer 1, .punct .semicolon, .punct .rightBrace])) := by
    decide +kernel
  cases hparse : Dialect.native.parse ⟨false⟩ "package a\nenum e \x7b option = 1 \x7d" with
  | error faults => simp [hparse, Except.toOption] at heval
  | ok schema =>
    simp only [hparse, Except.toOption, Option.map_some, Option.some.injEq, Prod.mk.injEq] at heval
    obtain ⟨hclash, himports, hoptions, htokens⟩ := heval
    obtain ⟨before, after, -, hchecked, -⟩ :=
      (Program.ofSchema "a.wproto" schema).exists_checkDefinitions_eq ⟨false⟩
    cases hresult : (Program.ofSchema "a.wproto" schema).checkDefinitions ⟨false⟩ with
    | mk program clash =>
      rw [hresult] at hclash hchecked
      have hschema : program.schema = schema := congrArg Program.schema hchecked
      have hfile : program.file = "a.wproto" := congrArg Program.file hchecked
      have hdescriptor : program.descriptor = none := congrArg Program.descriptor hchecked
      have hoptions' : (program.describe [program]).options = [] := by
        rw [Program.describe, hschema, hoptions]
        rfl
      have hsays : Lexer.Says (render (program.describe [program])).toList
          (program.schema.tokens (program.describe [program]).options) := by
        apply says_render
        · exact hschema ▸ Dialect.lexical_of_parse hparse
        · rw [hfile]
          decide
        · simp [hschema, himports]
        · simp [hoptions', goPackage?]
      rw [hoptions', hschema, htokens] at hsays
      refine ⟨schema, program, rfl, hresult.trans (Prod.ext rfl hclash), fun read => ?_⟩
      rw [Program.fileDesc, hdescriptor]
      exact Dialect.parse_ne_ok hsays (by decide +kernel) read

end Idl

import Idl.Descriptor.Describe
import Idl.Proofs.Analysis.Resolution
import Idl.Proofs.Analysis.Tables

/-!
# Passes in any order

An arena is filled by reading texts, and its programs are checked, bound to what they import, linked
and bound, in any order and any number of times, whether a pass fails or not.  At no time is a type
name bound to anything but a declaration that it stands for.  The main statement is that binding
which does not fail leaves no type name unbound, and that there is nothing to do for a second time.
-/

namespace Idl

open List

variable {schema : Schema} {arena : Arena} {schema' : Schema} {program : Program}
  {message : MethodMessage} {P : TypeName → Prop} {change : Program → Program}

/-! ## Passes -/

/-- One pass over an arena. -/
inductive Pass
  /-- Reads a text, and adds the program if it parses. -/
  | load (file : String) (dialect : Dialect) (config : ParseConfig) (source : String)
  | checkDefinitions (config : ParseConfig) (id : ProgramId)
  | applySetting (setting : Setting) (id : ProgramId)
  | bindImport (index : Nat) (target id : ProgramId)
  | linkImports (id : ProgramId)
  | bindReferences (id : ProgramId)
  /-- Keeps the descriptors of some programs. -/
  | remember (ids : List ProgramId)

namespace Arena

/-- Changes the program of a number, if there is one. -/
def update (arena : Arena) (id : ProgramId) (change : Program → Program) : Arena :=
  match arena[id]? with
  | some program => arena.set id (change program)
  | none => arena

/-- The arena after a pass, also after one that fails. -/
def after (arena : Arena) : Pass → Arena
  | .load file dialect config source =>
    match dialect.parse config source with
    | .ok schema => arena ++ [.ofSchema file schema]
    | .error _ => arena
  | .checkDefinitions config id => arena.update id fun program =>
    (program.checkDefinitions config).1
  | .applySetting setting id => arena.update id fun program =>
    { program with
      schema := { program.schema with options := setting.applyTo program.schema.options } }
  | .bindImport index target id => arena.update id fun program =>
    { program with schema := (program.schema.bindImport index target).1 }
  | .linkImports id => arena.update id fun program =>
    match program.linkImports arena with
    | .ok linked => linked
    | .error _ => program
  | .bindReferences id => arena.update id fun program => (program.bindReferences arena id).1
  | .remember ids => arena.remember ids

/-- The arena that passes make of an empty one. -/
def afterAll (passes : List Pass) : Arena := passes.foldl after []

end Arena

/-! ## Programs whose bindings are sound -/

/-- Tables and bindings of a program lead to declarations of the names in them, and the messages
made up for its methods have none nested in them. -/
structure Program.Sound (arena : Arena) (program : Program) : Prop extends program.Tables where
  types : program.schema.Each (TypeName.Sound arena)
  plain : ∀ message, .inline message ∈ program.schema.methodMessages → message.messages = []

/-- All programs of an arena are sound. -/
def Arena.Sound (arena : Arena) : Prop := ∀ program ∈ arena, program.Sound arena

/-- What references stand for in one arena has the same name in another. -/
def Arena.Keeps (arena arena' : Arena) : Prop :=
  ∀ ref name, arena.typeName? ref = some name → arena'.typeName? ref = some name

theorem Program.Sound.mono
    {arena' : Arena} (h : program.Sound arena) (hkeeps : arena.Keeps arena') :
    program.Sound arena' where
  toTables := h.toTables
  types := h.types.mono fun _ hsound target htarget =>
    let ⟨name, hname, hstands⟩ := hsound target htarget
    ⟨name, hkeeps target name hname, hstands⟩
  plain := h.plain

theorem Schema.typeName?_congr
    (hmessages : schema'.messages = schema.messages) (henums : schema'.enums = schema.enums)
    (path : TypePath) : schema'.typeName? path = schema.typeName? path := by
  have hmessage : ∀ path, schema'.message? path = schema.message? path := by
    intro path
    cases path with
    | nil => rfl
    | cons i path => simp only [message?, hmessages]
  cases path with
  | message path => rw [typeName?_message, typeName?_message, hmessage]
  | enum path =>
    obtain ⟨owner, index⟩ := path
    cases owner <;> simp only [typeName?_enum, enum?, hmessage, henums]

theorem Program.Sound.congr
    {program' : Program} (h : program.Sound arena) (hscope : program'.scope = program.scope)
    (hmessages : program'.schema.messages = program.schema.messages)
    (henums : program'.schema.enums = program.schema.enums)
    (hservices : program'.schema.services = program.schema.services) : program'.Sound arena := by
  have hnames := Schema.typeName?_congr hmessages henums
  refine ⟨⟨?_, ?_⟩, ?_, ?_⟩
  · simpa only [hscope, hnames] using h.messages
  · simpa only [hscope, hnames] using h.enums
  · simpa only [Schema.Each, hmessages, hservices] using h.types
  · simpa only [Schema.methodMessages, hservices] using h.plain

theorem Program.Tables.checkDefinitions (h : program.Tables) (config : ParseConfig) :
    (program.checkDefinitions config).1.Tables := by
  obtain ⟨before, after, hdefinitions, hchecked, -⟩ := program.exists_checkDefinitions_eq config
  have hbefore : before.Sublist program.schema.definitions := by
    rw [hdefinitions]
    exact sublist_append_left before after
  rw [hchecked]
  constructor
  · intro name path hentry
    rw [Scope.messages_foldl_extend, mem_append] at hentry
    rcases hentry with hold | hnew
    · exact h.messages name path hold
    · rw [Schema.typeName?_message]
      exact Schema.mem_messageEntries_iff.1 ((hbefore.filterMap _).subset hnew)
  · intro name path hentry
    rw [Scope.enums_foldl_extend, mem_append] at hentry
    rcases hentry with hold | hnew
    · exact h.enums name path hold
    · rw [Schema.typeName?_enum]
      exact Schema.mem_enumEntries_iff.1 ((hbefore.filterMap _).subset hnew)

theorem MethodMessage.Fresh.each (hP : ∀ type, type.Unbound → P type) (h : message.Fresh) :
    message.Each P := by
  cases h with
  | inline _ htype =>
    intro field hfield type hcustom
    obtain rfl := mem_singleton.1 hfield
    exact hP type (htype type hcustom)
  | stub name => exact hP _ rfl

theorem Schema.Fresh.of_methodMessages
    (h : schema.Fresh) (hmessage : message ∈ schema.methodMessages) : message.Fresh := by
  simp only [Schema.methodMessages, mem_flatMap] at hmessage
  obtain ⟨service, hservice, method, hmethod, hmessage⟩ := hmessage
  exact h.services service hservice method hmethod message hmessage

theorem Schema.Fresh.each (hP : ∀ type, type.Unbound → P type) (h : schema.Fresh) :
    schema.Each P := by
  refine ⟨Schema.forall_services_each_iff.2 fun message hmessage => ?_, fun message hmessage => ?_⟩
  · exact (h.of_methodMessages hmessage).each hP
  · exact (h.messages message hmessage).mono hP

theorem Schema.Fresh.sound (h : schema.Fresh) (arena : Arena) (file : String) :
    (Program.ofSchema file schema).Sound arena := by
  have hunbound : ∀ type : TypeName, type.Unbound → type.Sound arena := by
    intro type htype target htarget
    rw [show type.target = none from htype] at htarget
    cases htarget
  refine ⟨⟨fun _ _ hentry => absurd hentry not_mem_nil,
    fun _ _ hentry => absurd hentry not_mem_nil⟩, h.each hunbound, ?_⟩
  intro message hmessage
  cases h.of_methodMessages hmessage
  rfl

/-- Messages made up for methods have none nested in them before and after their type names are
bound. -/
theorem Schema.plain_of_unbind
    (h : schema'.unbind = schema.unbind)
    (hplain : ∀ message, .inline message ∈ schema.methodMessages → message.messages = []) :
    ∀ message, .inline message ∈ schema'.methodMessages → message.messages = [] := by
  intro message hmessage
  have hunbound : (MethodMessage.inline message).unbind ∈ schema.methodMessages.map (·.unbind) := by
    rw [← methodMessages_unbind, ← h, methodMessages_unbind]
    exact mem_map_of_mem hmessage
  obtain ⟨other, hother, heq⟩ := mem_map.1 hunbound
  cases other with
  | stub name target => cases heq
  | inline other =>
    have hmessages := hplain other hother
    simp only [MethodMessage.unbind, MethodMessage.inline.injEq, Message.mk.injEq] at heq
    rw [← heq.2.2.2.1]
    exact hmessages

/-! ## What one pass keeps -/

namespace Arena

variable {arena : Arena} {id : ProgramId} {program : Program}

theorem Sound.rebound (h : arena.Sound) (hprogram : arena[id]? = some program) :
    Rebound Schema.unbind Schema.Each (TypeName.Sound arena) program.schema
      ((program.bindReferences arena id).1.schema, (program.bindReferences arena id).2) := by
  have htables : ∀ program ∈ arena, program.Tables := fun p hp => (h p hp).toTables
  exact Program.rebound (Program.finds_resolve? htables hprogram)
    (Program.finds_resolveStub? htables hprogram) (Program.finds_lookUp htables hprogram)

theorem Sound.set
    (h : arena.Sound) (hprogram : arena[id]? = some program) {changed : Program}
    (hnames : ∀ path, changed.schema.typeName? path = program.schema.typeName? path)
    (hchanged : changed.Sound arena) : Arena.Sound (arena.set id changed) := by
  have hkeeps : arena.Keeps (arena.set id changed) := by
    intro ref name hname
    rw [typeName?_eq] at hname ⊢
    rw [getElem?_set']
    by_cases hid : id = ref.program
    · subst hid
      rw [hprogram] at hname ⊢
      simpa [hnames] using hname
    · simpa [hid] using hname
  intro p hp
  rcases mem_or_eq_of_mem_set hp with hp | rfl
  · exact (h p hp).mono hkeeps
  · exact hchanged.mono hkeeps

theorem Sound.update
    (h : arena.Sound) (hnames : ∀ program, arena[id]? = some program → ∀ path,
      (change program).schema.typeName? path = program.schema.typeName? path)
    (hchange : ∀ program, arena[id]? = some program → (change program).Sound arena) :
    Arena.Sound (arena.update id change) := by
  unfold Arena.update
  split
  next program hprogram => exact h.set hprogram (hnames program hprogram) (hchange program hprogram)
  next => exact h

theorem Sound.update_of_eq
    (h : arena.Sound) (hscope : ∀ program, (change program).scope = program.scope)
    (hmessages : ∀ program, (change program).schema.messages = program.schema.messages)
    (henums : ∀ program, (change program).schema.enums = program.schema.enums)
    (hservices : ∀ program, (change program).schema.services = program.schema.services) :
    Arena.Sound (arena.update id change) :=
  h.update (fun program _ => Schema.typeName?_congr (hmessages program) (henums program))
    fun program hprogram => (h program (mem_of_getElem? hprogram)).congr (hscope program)
      (hmessages program) (henums program) (hservices program)

theorem Sound.append (h : arena.Sound) (hprogram : ∀ arena, program.Sound arena) :
    Arena.Sound (arena ++ [program]) := by
  have hkeeps : arena.Keeps (arena ++ [program]) := by
    intro ref name hname
    rw [typeName?_eq] at hname ⊢
    obtain ⟨found, hfound, hname⟩ := Option.bind_eq_some_iff.1 hname
    obtain ⟨hlt, -⟩ := List.getElem?_eq_some_iff.1 hfound
    rw [getElem?_append_left hlt, hfound, Option.bind_some, hname]
  intro p hp
  rcases mem_append.1 hp with hp | hp
  · exact (h p hp).mono hkeeps
  · rw [mem_singleton.1 hp]
    exact hprogram _

theorem Sound.remember (h : arena.Sound) (ids : List ProgramId) :
    Arena.Sound (arena.remember ids) := by
  have hkeeps : arena.Keeps (arena.remember ids) := by
    intro ref name hname
    rw [typeName?_eq] at hname ⊢
    rw [Arena.remember, getElem?_mapIdx]
    cases hprogram : arena[ref.program]? with
    | none => simp [hprogram] at hname
    | some program =>
      rw [hprogram] at hname
      simp only [Option.map_some, Option.bind_some] at hname ⊢
      split <;> exact hname
  intro p hp
  obtain ⟨i, hi, rfl⟩ := mem_mapIdx.1 hp
  have hsound := (h arena[i] (getElem_mem hi)).mono hkeeps
  split
  · exact hsound.congr rfl rfl rfl rfl
  · exact hsound

theorem Sound.bindReferences (h : arena.Sound) (hprogram : arena[id]? = some program) :
    (program.bindReferences arena id).1.Sound arena := by
  have hbefore := h program (mem_of_getElem? hprogram)
  have hrebound := h.rebound hprogram
  have hnames := Schema.typeName?_eq_of_unbind hrebound.erase_eq
  obtain ⟨services, messages, heq⟩ := program.bindReferences_eq arena id
  have hscope : (program.bindReferences arena id).1.scope = program.scope := by rw [heq]
  refine ⟨⟨?_, ?_⟩, hrebound.each hbefore.types,
    Schema.plain_of_unbind hrebound.erase_eq hbefore.plain⟩
  · simpa only [hscope, hnames] using hbefore.messages
  · simpa only [hscope, hnames] using hbefore.enums

theorem Sound.after (h : arena.Sound) (pass : Pass) : Arena.Sound (arena.after pass) := by
  cases pass with
  | load file dialect config source =>
    rw [Arena.after]
    split
    next schema hparse => exact h.append fun arena => (fresh_of_parse hparse).sound arena file
    next => exact h
  | checkDefinitions config id =>
    have hschema : ∀ program : Program,
        (program.checkDefinitions config).1.schema = program.schema := by
      intro program
      obtain ⟨before, after, -, hchecked, -⟩ := program.exists_checkDefinitions_eq config
      rw [hchecked]
    refine h.update (fun program _ path => by rw [hschema]) fun program hprogram => ?_
    have hprogram := h program (mem_of_getElem? hprogram)
    exact ⟨hprogram.toTables.checkDefinitions config, by rw [hschema]; exact hprogram.types,
      by rw [hschema]; exact hprogram.plain⟩
  | applySetting setting id =>
    exact h.update_of_eq (fun _ => rfl) (fun _ => rfl) (fun _ => rfl) (fun _ => rfl)
  | bindImport index target id =>
    refine h.update_of_eq (fun _ => rfl) ?_ ?_ ?_ <;>
      intro program <;> rw [Schema.bindImport_eq]
  | linkImports id =>
    have hlinked : ∀ program : Program, ∃ references,
        (match program.linkImports arena with
          | .ok linked => linked
          | .error _ => program) = { program with references } := by
      intro program
      split
      next linked hlinked =>
        obtain ⟨references, -, rfl⟩ := Program.linkImports_eq_ok_iff.1 hlinked
        exact ⟨_, rfl⟩
      next => exact ⟨program.references, rfl⟩
    refine h.update_of_eq ?_ ?_ ?_ ?_ <;>
      · intro program
        obtain ⟨references, heq⟩ := hlinked program
        rw [heq]
  | bindReferences id =>
    exact h.update (fun program hprogram path =>
      Schema.typeName?_eq_of_unbind (h.rebound hprogram).erase_eq path)
        fun program hprogram => h.bindReferences hprogram
  | remember ids => exact h.remember ids

theorem sound_afterAll (passes : List Pass) : (afterAll passes).Sound := by
  suffices h : ∀ arena : Arena, arena.Sound → Arena.Sound (passes.foldl Arena.after arena) by
    exact h [] fun program hprogram => nomatch hprogram
  induction passes with
  | nil => exact fun arena h => h
  | cons pass passes ih => exact fun arena h => ih _ (h.after pass)

end Arena

/-! ## Programs whose type names are bound -/

/-- The type name is bound to a declaration of the arena that it stands for. -/
def TypeName.Denotes (arena : Arena) (type : TypeName) : Prop :=
  ∃ target name, type.target = some target ∧ arena.typeName? target = some name ∧
    StandsFor type.name.value name

theorem TypeName.Sound.denotes {type : TypeName} (h : type.Sound arena) (hbound : type.Bound) :
    type.Denotes arena := by
  obtain ⟨target, htarget⟩ := Option.isSome_iff_exists.1 hbound
  obtain ⟨name, hname, hstands⟩ := h target htarget
  exact ⟨target, name, htarget, hname, hstands⟩

theorem Program.bindReferences_eq_withSchema (arena : Arena) (id : ProgramId) (program : Program) :
    (program.bindReferences arena id).1 =
      { program with schema := (program.bindReferences arena id).1.schema } := by
  obtain ⟨services, messages, heq⟩ := program.bindReferences_eq arena id
  rw [heq]

/-- In an arena that any passes have made, binding the type names of a program without a fault
changes nothing but bindings.  Afterwards every type name, in messages at any depth and in requests
and replies, denotes a declaration of the arena, a bare name of a request or a reply denotes a
message, and binding once more finds nothing to do. -/
theorem Arena.bindReferences_complete
    (passes : List Pass) {id : ProgramId} {program bound : Program}
    (hprogram : (afterAll passes)[id]? = some program)
    (hbind : program.bindReferences (afterAll passes) id = (bound, none)) :
    let arena : Arena := (afterAll passes).set id bound
    bound = { program with schema := bound.schema } ∧
      bound.schema.unbind = program.schema.unbind ∧
      (∀ path message, bound.schema.message? path = some message →
        ∀ field ∈ message.fields, field.Each (TypeName.Denotes arena)) ∧
      (∀ message, .inline message ∈ bound.schema.methodMessages →
        message.Each (TypeName.Denotes arena)) ∧
      (∀ name target, .stub name target ∈ bound.schema.methodMessages →
        ∃ ref message, target = some ref ∧ arena.message? ref = some message ∧
          StandsFor name.value message.name.value) ∧
      bound.bindReferences arena id = (bound, none) := by
  intro arena
  have hbefore := sound_afterAll passes
  have hrebound := hbefore.rebound hprogram
  rw [hbind] at hrebound
  have hafter : arena.Sound := by
    refine hbefore.set hprogram (Schema.typeName?_eq_of_unbind hrebound.erase_eq) ?_
    have hbound := hbefore.bindReferences hprogram
    rwa [hbind] at hbound
  have hself : arena[id]? = some bound := by
    rw [getElem?_set_self']
    simp [hprogram]
  obtain ⟨htypes, hmethods⟩ := Schema.each_iff.1 (hafter bound (mem_of_getElem? hself)).types
  obtain ⟨hboundTypes, hboundMethods⟩ := Schema.each_iff.1 (hrebound.bound rfl)
  refine ⟨?_, hrebound.erase_eq, ?_, ?_, ?_, ?_⟩
  · have heq := program.bindReferences_eq_withSchema (afterAll passes) id
    rwa [hbind] at heq
  · exact fun path message hmessage field hfield type htype =>
      (htypes path message hmessage field hfield type htype).denotes
        (hboundTypes path message hmessage field hfield type htype)
  · intro message hmessage
    -- nothing is nested in a made-up message, so that its own fields are all
    have hplain := (hafter bound (mem_of_getElem? hself)).plain message hmessage
    refine Message.each_iff.2 ⟨fun field hfield type htype => ?_, by simp [hplain]⟩
    exact (hmethods _ hmessage field hfield type htype).denotes
      (hboundMethods _ hmessage field hfield type htype)
  · intro name target hstub
    obtain ⟨ref, htarget⟩ := Option.isSome_iff_exists.1 (hboundMethods _ hstub)
    obtain ⟨ref, rfl, rfl⟩ := Option.map_eq_some_iff.1 htarget
    obtain ⟨found, hfound, hstands⟩ := hmethods _ hstub _ rfl
    obtain ⟨message, hmessage, rfl⟩ := Option.map_eq_some_iff.1 hfound
    exact ⟨ref, message, rfl, hmessage, hstands⟩
  · have hfixed := (hafter.rebound hself).fixed (hrebound.bound rfl)
    obtain ⟨hschema, hnone⟩ := Prod.mk.inj hfixed
    refine Prod.ext ?_ hnone
    rw [bound.bindReferences_eq_withSchema, hschema]

/-- A request in the program's own package, a reply and a field in an imported one. -/
def importingPasses : List Pass :=
  [.load "a.wproto" .native ⟨true⟩
      "package p enum e { x } message a { message n { e f = 1 n g = 2 } n h = 1 }",
    .load "b.proto" .protobuf ⟨false⟩ ("syntax = \"proto3\"; package q; import \"a.wproto\"; " ++
      "message m { p.a f = 1; } service s { rpc g(q.m) returns (p.a) {} }"),
    .checkDefinitions ⟨true⟩ 0, .checkDefinitions ⟨false⟩ 1, .bindImport 0 0 1, .linkImports 1]

theorem Arena.bindReferences_complete_importing :
    ∃ program bound, (afterAll importingPasses)[1]? = some program ∧
      program.bindReferences (afterAll importingPasses) 1 = (bound, none) ∧
      (bound.schema.methodMessages.filterMap fun
        | .stub _ target => target
        | .inline _ => none) = [⟨1, [0]⟩, ⟨0, [0]⟩] ∧
      (∀ path message, bound.schema.message? path = some message → ∀ field ∈ message.fields,
        field.Each (TypeName.Denotes ((afterAll importingPasses).set 1 bound))) ∧
      bound.bindReferences ((afterAll importingPasses).set 1 bound) 1 = (bound, none) := by
  have hbinds : ((afterAll importingPasses)[1]?.map fun program =>
      let result := program.bindReferences (afterAll importingPasses) 1
      (result.2, result.1.schema.methodMessages.filterMap fun
        | .stub _ target => target
        | .inline _ => none)) = some (none, [⟨1, [0]⟩, ⟨0, [0]⟩]) := by
    decide +kernel
  obtain ⟨program, hprogram, hresult⟩ := Option.map_eq_some_iff.1 hbinds
  obtain ⟨hnone, htargets⟩ := Prod.mk.inj hresult
  have hbind : program.bindReferences (afterAll importingPasses) 1 =
      ((program.bindReferences (afterAll importingPasses) 1).1, none) := Prod.ext rfl hnone
  obtain ⟨-, -, htypes, -, -, hagain⟩ := bindReferences_complete importingPasses hprogram hbind
  exact ⟨program, _, hprogram, hbind, htargets, htypes, hagain⟩

end Idl

import Idl.Proofs.Analysis.Grouping
import Idl.Proofs.Analysis.Schedule
import Idl.Proofs.Analysis.Unresolved

/-!
# Types of the program's own package

A program may qualify a type of its own with its package, but imports come first.  If an import goes
by the name of the package, the type is looked for in what is imported under that name and nowhere
else.  A name is split at its last dot, so that a type whose own name has a dot is looked for under
a longer name than the package.
-/

namespace Idl

open List

/-! ## Programs that have passed the check -/

/-- The schema declares a message or an enum of the given name, at whatever depth. -/
def Schema.Declares (schema : Schema) (name : String) : Prop :=
  ∃ path, schema.typeName? path = some name

namespace Program

variable {arena : Arena} {id : ProgramId} {program checked : Program} {name : String}

/-- The program was read from a text and has passed the check of its definitions.  Since then it may
have been given options and bindings. -/
def Passed (program : Program) : Prop :=
  ∃ (dialect : Dialect) (parsing checking : ParseConfig) (source file : String) (schema : Schema)
    (checked : Program) (imports : List Import) (options : List OptionDecl),
    dialect.parse parsing source = .ok schema ∧
    (Program.ofSchema file schema).checkDefinitions checking = (checked, none) ∧
    program.scope = checked.scope ∧
    program.schema.unbind = { schema.unbind with imports, options }

theorem Passed.of_checkDefinitions
    {dialect : Dialect} {parsing checking : ParseConfig} {source file : String} {schema : Schema}
    (hparse : dialect.parse parsing source = .ok schema)
    (hcheck : ((Program.ofSchema file schema).checkDefinitions checking).2 = none) :
    ((Program.ofSchema file schema).checkDefinitions checking).1.Passed := by
  have hchecked : (Program.ofSchema file schema).checkDefinitions checking =
      (((Program.ofSchema file schema).checkDefinitions checking).1, none) := Prod.ext rfl hcheck
  obtain ⟨hschema, -, -⟩ := tabulated_of_checkDefinitions (fresh_of_parse hparse) hchecked
  exact ⟨dialect, parsing, checking, source, file, schema, _, schema.imports, schema.options,
    hparse, hchecked, rfl, by rw [hschema]; rfl⟩

theorem Passed.bindImport (h : program.Passed) (index : Nat) (target : ProgramId) :
    Passed { program with schema := (program.schema.bindImport index target).1 } := by
  obtain ⟨dialect, parsing, checking, source, file, schema, checked, imports, options, hparse,
    hcheck, hscope, hschema⟩ := h
  refine ⟨dialect, parsing, checking, source, file, schema, checked,
    (program.schema.bindImport index target).1.imports, options, hparse, hcheck, hscope, ?_⟩
  have hbind : (program.schema.bindImport index target).1.unbind =
      { program.schema.unbind with
        imports := (program.schema.bindImport index target).1.imports } := by
    conv_lhs => rw [Schema.bindImport_eq]
    rfl
  rw [hbind, hschema]

theorem Tabulated.congr
    (h : checked.Tabulated) (hscope : program.scope = checked.scope)
    (hnames : ∀ path, program.schema.typeName? path = checked.schema.typeName? path) :
    program.Tabulated := by
  obtain ⟨hmessages, henums, hapart⟩ := h
  simp only [← Schema.typeName?_message, ← Schema.typeName?_enum] at hmessages henums
  simp only [← hscope, ← hnames] at hmessages henums hapart
  simp only [Schema.typeName?_message, Schema.typeName?_enum] at hmessages henums
  exact ⟨hmessages, henums, hapart⟩

theorem Passed.tabulated (h : program.Passed) : program.Tabulated := by
  obtain ⟨dialect, parsing, checking, source, file, schema, checked, imports, options, hparse,
    hcheck, hscope, hschema⟩ := h
  obtain ⟨rfl, -, htabulated⟩ := tabulated_of_checkDefinitions (fresh_of_parse hparse) hcheck
  refine htabulated.congr hscope fun path => ?_
  rw [← Schema.typeName?_unbind, hschema, ← Schema.typeName?_unbind checked.schema]
  exact Schema.typeName?_congr rfl rfl path

/-- The tables of a program have the names that it declares, and no others. -/
theorem Tabulated.find?_eq_none_iff (h : program.Tabulated) :
    program.scope.find? id name = none ↔ ¬program.schema.Declares name := by
  have hmessages : program.scope.messages.lookup name = none ↔
      ∀ path, program.schema.typeName? (.message path) ≠ some name := by
    refine Option.eq_none_iff_forall_ne_some.trans (forall_congr' fun path => not_congr ?_)
    rw [h.messages.lookup, Schema.typeName?_message]
  have henums : program.scope.enums.lookup name = none ↔
      ∀ path, program.schema.typeName? (.enum path) ≠ some name := by
    refine Option.eq_none_iff_forall_ne_some.trans (forall_congr' fun path => not_congr ?_)
    rw [h.enums.lookup, Schema.typeName?_enum]
  have hfind : program.scope.find? id name = none ↔
      program.scope.messages.lookup name = none ∧ program.scope.enums.lookup name = none := by
    unfold Scope.find? Scope.findMessage?
    cases program.scope.messages.lookup name <;> simp
  rw [hfind, hmessages, henums, Schema.Declares]
  constructor
  · rintro ⟨hmessage, henum⟩ ⟨path | path, hpath⟩
    · exact hmessage path hpath
    · exact henum path hpath
  · exact fun hnone => ⟨fun path hpath => hnone ⟨_, hpath⟩, fun path hpath => hnone ⟨_, hpath⟩⟩

/-! ## Where a qualified name is looked for -/

/-- The programs under a name of a linked program are those that its imports bring in under it. -/
theorem Linked.lookup_eq_none_iff (h : program.Linked arena) :
    program.references.bind (·.lookup name) = none ↔
      arena.named program.schema.imports name = [] := by
  rw [h.references_eq, Option.bind_some, Arena.lookup_grouping]
  split <;> simp_all

theorem Linked.mem_iff
    (h : program.Linked arena) {ids : List ProgramId}
    (hids : program.references.bind (·.lookup name) = some ids) {i : ProgramId} :
    i ∈ ids ↔ i ∈ arena.named program.schema.imports name := by
  rw [h.references_eq, Option.bind_some, Arena.lookup_grouping] at hids
  split at hids
  · cases hids
  · rw [← Option.some.inj hids, mem_eraseDups]

end Program

theorem splitLastDot?_eq_some {qualifier short : String} (hshort : '.' ∉ short.toList) :
    splitLastDot? (qualifier ++ "." ++ short) = some (qualifier, short) := by
  have htext : (qualifier ++ "." ++ short).toList.reverse =
      short.toList.reverse ++ '.' :: qualifier.toList.reverse := by simp
  have hplain : ∀ c ∈ short.toList.reverse, (c != '.') = true := by
    intro c hc
    rw [bne_iff_ne]
    rintro rfl
    exact hshort (mem_reverse.1 hc)
  rw [splitLastDot?, htext, takeWhile_append_of_pos hplain,
    dropWhile_append_of_pos hplain]
  simp

/-- A name behind a dot is split there, or at a later dot. -/
theorem exists_splitLastDot? (qualifier name : String) :
    ∃ before short, splitLastDot? (qualifier ++ "." ++ name) = some (before, short) ∧
      (before = qualifier → short = name) := by
  by_cases hname : '.' ∈ name.toList
  · obtain ⟨behind, before, hreverse, hbehind⟩ :=
      eq_append_cons_of_mem (mem_reverse.2 hname)
    have htext : qualifier ++ "." ++ name =
        (qualifier ++ "." ++ String.ofList before.reverse) ++ "." ++ String.ofList
          behind.reverse := by
      rw [← String.toList_inj]
      have hlist := congrArg List.reverse hreverse
      simp only [reverse_reverse, reverse_append, reverse_cons] at hlist
      simp [hlist]
    refine ⟨_, _, by rw [htext, splitLastDot?_eq_some (by simpa using hbehind)], fun heq => ?_⟩
    have hlength := congrArg String.length heq
    simp only [String.length_append] at hlength
    have hdot : ".".length = 1 := rfl
    omega
  · exact ⟨qualifier, name, splitLastDot?_eq_some hname, fun _ => rfl⟩

namespace Program

variable {arena : Arena} {id : ProgramId} {program : Program} {name : String}

/-- A type of the program that is qualified with its package is not found.  The name is looked for
under all but its last part: imports go by that name, or it is not the package, and no program that
is imported under it declares the last part. -/
def Overlooks (arena : Arena) (program : Program) (name : String) : Prop :=
  ∃ qualifier short, splitLastDot? (program.package ++ "." ++ name) = some (qualifier, short) ∧
    (qualifier = program.package → arena.named program.schema.imports qualifier ≠ []) ∧
    ∀ i ∈ arena.named program.schema.imports qualifier, ∀ other, arena[i]? = some other →
      ¬other.schema.Declares short

/-- For a name without a dot, some import goes by the name of the package, and none of those
declares it. -/
theorem overlooks_iff_of_plain (hname : '.' ∉ name.toList) :
    program.Overlooks arena name ↔
      arena.named program.schema.imports program.package ≠ [] ∧
        ∀ i ∈ arena.named program.schema.imports program.package, ∀ other,
          arena[i]? = some other → ¬other.schema.Declares name := by
  simp only [Overlooks, splitLastDot?_eq_some hname, Option.some.injEq, Prod.mk.injEq]
  constructor
  · rintro ⟨_, _, ⟨rfl, rfl⟩, hnamed, hnone⟩
    exact ⟨hnamed rfl, hnone⟩
  · rintro ⟨hnamed, hnone⟩
    exact ⟨_, _, ⟨rfl, rfl⟩, fun _ => hnamed, hnone⟩

theorem resolve?_eq_none_iff_overlooks
    (hpassed : ∀ other ∈ arena, other.Passed) (hprogram : arena[id]? = some program)
    (hlinked : program.Linked arena) (hname : program.schema.Declares name)
    {type : TypeName} (htype : type.name.value = program.package ++ "." ++ name) :
    program.resolve? arena id type = none ↔ program.Overlooks arena name := by
  obtain ⟨qualifier, short, hsplit, hshort⟩ := exists_splitLastDot? program.package name
  have hqualified : type.qualified? = some (qualifier, short) := by
    rw [TypeName.qualified?, htype, hsplit]
  have hfind : ∀ {i : ProgramId} {other : Program}, arena[i]? = some other →
      (other.scope.find? i short = none ↔ ¬other.schema.Declares short) :=
    fun hother => (hpassed _ (mem_of_getElem? hother)).tabulated.find?_eq_none_iff
  have hoverlooks : program.Overlooks arena name ↔
      (qualifier = program.package → arena.named program.schema.imports qualifier ≠ []) ∧
      ∀ i ∈ arena.named program.schema.imports qualifier, ∀ other, arena[i]? = some other →
        ¬other.schema.Declares short := by
    simp [Overlooks, hsplit]
  rw [hoverlooks, resolve?, hqualified]
  dsimp only
  split
  next ids hids =>
    have hmem : ∀ i, i ∈ ids ↔ i ∈ arena.named program.schema.imports qualifier :=
      fun i => hlinked.mem_iff hids
    have hsome : arena.named program.schema.imports qualifier ≠ [] := by
      rw [Ne, ← hlinked.lookup_eq_none_iff, hids]
      simp
    simp only [findSome?_eq_none_iff, hmem, Option.bind_eq_none_iff, hsome, ne_eq,
      not_false_eq_true, implies_true, true_and]
    refine forall₂_congr fun i hi => forall₂_congr fun other hother => ?_
    exact hfind hother
  next hnone =>
    rw [hlinked.lookup_eq_none_iff] at hnone
    simp only [hnone, ne_eq, not_true_eq_false, imp_false, not_mem_nil, IsEmpty.forall_iff,
      implies_true, and_true]
    split
    next hown =>
      simp only [hown, not_true_eq_false, iff_false]
      rw [hfind hprogram, hshort hown, not_not]
      exact hname
    next hother => simp [hother]

/-! ## What is reported -/

theorem Misses.resolve?_eq_none
    {written : Located String} {field : String} {place : Place}
    (h : program.Misses arena id (.fieldType written field place)) :
    ∃ type, type.name = written ∧ program.resolve? arena id type = none := by
  rcases h.exists_part with ⟨message, place', hmisses⟩ |
    ⟨path, message, field, -, type, -, -, hlookUp, hfault⟩
  · cases message with
    | inline message =>
      obtain ⟨_, -, type, -, -, hresolve, hfault⟩ := hmisses
      cases hfault
      exact ⟨type, rfl, hresolve⟩
    | stub name target => cases hmisses.2.2
  · cases hfault
    refine ⟨type, rfl, ?_⟩
    unfold Message.lookUp at hlookUp
    split at hlookUp
    · cases hlookUp
    · exact hlookUp

/-- A field of the program is written with the type name, is not bound, and does not stand for what
is nested in the message around it. -/
def Asks (id : ProgramId) (program : Program) (written : String) : Prop :=
  (∃ path message, program.schema.message? path = some message ∧
    message.find? id path written = none ∧ ∃ field ∈ message.fields, ∃ type,
      field.type.custom? = some type ∧ type.target = none ∧ type.name.value = written) ∨
  ∃ message, .inline message ∈ program.schema.methodMessages ∧ ∃ field ∈ message.fields, ∃ type,
    field.type.custom? = some type ∧ type.target = none ∧ type.name.value = written

theorem Asks.bindReferences_ne_none
    {written : String} (h : program.Asks id written)
    (hnone : ∀ type : TypeName, type.name.value = written → program.resolve? arena id type = none) :
    (program.bindReferences arena id).2 ≠ none := by
  rcases h with ⟨path, message, hmessage, hfind, field, hfield, type, htype, htarget, rfl⟩ |
    ⟨message, hmessage, field, hfield, type, htype, htarget, rfl⟩
  · have hlookUp : message.lookUp (program.resolve? arena id) id path type = none := by
      rw [Message.lookUp, hfind]
      exact hnone type rfl
    exact fun hbind => (program.reports_bindReferences arena id).none hbind _
      (.inr ⟨path, message, hmessage, field, hfield, type, htype, htarget, hlookUp, rfl⟩)
  · exact Program.bindReferences_ne_none hmessage fun place =>
      ⟨_, field, hfield, type, htype, htarget, hnone type rfl, rfl⟩

/-- Among programs that have passed the check, a linked program may qualify a type of its own with
its package, unless the type is overlooked: binding reports no field of such a type, and if the type
is overlooked it fails on any field that asks for it.  A type whose name has no dot is overlooked
exactly if imports go by the name of the package and none of them declares it. -/
theorem own_package_reported_iff_overlooked
    (hpassed : ∀ other ∈ arena, other.Passed) (hprogram : arena[id]? = some program)
    (hlinked : program.Linked arena) (hname : program.schema.Declares name) :
    (∀ written field place,
      (program.bindReferences arena id).2 = some (.fieldType written field place) →
      written.value = program.package ++ "." ++ name → program.Overlooks arena name) ∧
    (program.Overlooks arena name → program.Asks id (program.package ++ "." ++ name) →
      (program.bindReferences arena id).2 ≠ none) ∧
    ('.' ∉ name.toList → (program.Overlooks arena name ↔
      arena.named program.schema.imports program.package ≠ [] ∧
        ∀ i ∈ arena.named program.schema.imports program.package, ∀ other,
          arena[i]? = some other → ¬other.schema.Declares name)) := by
  have hresolve : ∀ type : TypeName, type.name.value = program.package ++ "." ++ name →
      (program.resolve? arena id type = none ↔ program.Overlooks arena name) :=
    fun type htype => resolve?_eq_none_iff_overlooks hpassed hprogram hlinked hname htype
  refine ⟨?_, ?_, overlooks_iff_of_plain⟩
  · rintro written field place hfault hwritten
    obtain ⟨type, rfl, hnone⟩ :=
      ((program.reports_bindReferences arena id).fault _ hfault).resolve?_eq_none
    exact (hresolve type hwritten).1 hnone
  · intro hoverlooks hasks
    exact hasks.bindReferences_ne_none fun type htype => (hresolve type htype).2 hoverlooks

/-- A program with one import, and the program that it imports. -/
def importing (own other : Schema) : Arena :=
  let own := ((Program.ofSchema "a.wproto" own).checkDefinitions ⟨false⟩).1
  let other := ((Program.ofSchema "b.wproto" other).checkDefinitions ⟨false⟩).1
  [{ own with
      schema := (own.schema.bindImport 0 1).1
      references := some [(other.package, [1])] }, other]

theorem passed_importing
    {source source' : String} {own other : Schema}
    (hown : Dialect.native.parse ⟨false⟩ source = .ok own)
    (hother : Dialect.native.parse ⟨false⟩ source' = .ok other)
    (hcheck : ((Program.ofSchema "a.wproto" own).checkDefinitions ⟨false⟩).2 = none)
    (hcheck' : ((Program.ofSchema "b.wproto" other).checkDefinitions ⟨false⟩).2 = none) :
    ∀ program ∈ importing own other, program.Passed := by
  have hfirst := (Passed.of_checkDefinitions hown hcheck).bindImport 0 1
  have hsecond := Passed.of_checkDefinitions hother hcheck'
  intro program hprogram
  rcases mem_cons.1 hprogram with rfl | hprogram
  · exact hfirst
  · obtain rfl := mem_singleton.1 hprogram
    exact hsecond

/-- The text of a program that qualifies a type of its own. -/
def ownText : String :=
  "package p import \"b.wproto\" message t \x7b int32 n = 1 \x7d message m \x7b p.t f = 1 \x7d"

/-- What can be computed of that program when it imports another text. -/
def computes (text : String) (fact : Arena → Program → Bool) : Bool :=
  (Dialect.native.parse ⟨false⟩ ownText).toOption.any fun own =>
  (Dialect.native.parse ⟨false⟩ text).toOption.any fun other =>
  (importing own other)[0]?.any fun program =>
    ((Program.ofSchema "a.wproto" own).checkDefinitions ⟨false⟩).2.isNone &&
    ((Program.ofSchema "b.wproto" other).checkDefinitions ⟨false⟩).2.isNone &&
    (program.link (importing own other)).toOption == program.references &&
    program.schema.typeName? (.message [0]) == some "t" &&
    program.package == "p" && fact (importing own other) program

theorem exists_of_computes
    (text : String) (fact : Arena → Program → Bool) (h : computes text fact) :
    ∃ (arena : Arena) (program : Program), arena[0]? = some program ∧
      (∀ other ∈ arena, other.Passed) ∧ program.Linked arena ∧ program.schema.Declares "t" ∧
      program.package = "p" ∧ fact arena program = true := by
  cases hown : Dialect.native.parse ⟨false⟩ ownText with
  | error faults => simp [computes, hown, Except.toOption] at h
  | ok own =>
    cases hother : Dialect.native.parse ⟨false⟩ text with
    | error faults => simp [computes, hown, hother, Except.toOption] at h
    | ok other =>
      simp only [computes, hown, hother, Except.toOption, Option.any_some, Option.any_eq_true,
        Bool.and_eq_true, Option.isNone_iff_eq_none, beq_iff_eq] at h
      obtain ⟨program, hprogram, ⟨⟨⟨⟨hcheck, hcheck'⟩, hlink⟩, hname⟩, hpackage⟩, hfact⟩ := h
      refine ⟨importing own other, program, hprogram, passed_importing hown hother hcheck hcheck',
        ?_, ⟨_, hname⟩, hpackage, hfact⟩
      obtain ⟨references, hreferences⟩ : ∃ references, program.references = some references := by
        cases hprogram
        exact ⟨_, rfl⟩
      refine ⟨references, ?_, hreferences⟩
      cases hlinked : program.link (importing own other) with
      | error fault => simp [hlinked, hreferences] at hlink
      | ok linked => simpa [hlinked, hreferences] using hlink

theorem own_package_reported_iff_overlooked_importing :
    ∃ (arena : Arena) (program : Program), arena[0]? = some program ∧
      (∀ other ∈ arena, other.Passed) ∧ program.Linked arena ∧ program.schema.Declares "t" ∧
      program.package = "p" ∧ ∀ written field place, (program.bindReferences arena 0).2 =
        some (.fieldType written field place) → written.value ≠ "p.t" := by
  obtain ⟨arena, program, hprogram, hpassed, hlinked, hname, hpackage, hnamed⟩ :=
    exists_of_computes "package q" (fun arena program =>
      arena.named program.schema.imports program.package == []) (by decide +kernel)
  obtain ⟨hreported, -, hplain⟩ :=
    own_package_reported_iff_overlooked hpassed hprogram hlinked hname
  refine ⟨arena, program, hprogram, hpassed, hlinked, hname, hpackage, ?_⟩
  intro written field place hfault hwritten
  have hoverlooks := hreported written field place hfault (by rw [hwritten, hpackage]; rfl)
  exact ((hplain (by decide)).1 hoverlooks).1 (eq_of_beq hnamed)

/-- The import declares the same package, and not the type. -/
theorem own_package_reported_sharing :
    ∃ (arena : Arena) (program : Program), arena[0]? = some program ∧
      (∀ other ∈ arena, other.Passed) ∧ program.Linked arena ∧ program.schema.Declares "t" ∧
      program.package = "p" ∧ (program.bindReferences arena 0).2 =
        some (.fieldType ⟨"p.t", ⟨66, 69, by decide⟩⟩ "f" (.message "m")) := by
  obtain ⟨arena, program, hprogram, hpassed, hlinked, hname, hpackage, hfault⟩ :=
    exists_of_computes "package p" (fun arena program =>
      (program.bindReferences arena 0).2 ==
        some (.fieldType ⟨"p.t", ⟨66, 69, by decide⟩⟩ "f" (.message "m"))) (by decide +kernel)
  exact ⟨arena, program, hprogram, hpassed, hlinked, hname, hpackage, eq_of_beq hfault⟩

end Program

end Idl

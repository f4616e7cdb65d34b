import Idl.Proofs.Analysis.Catalogue
import Idl.Proofs.Analysis.OwnPackage
import Idl.Proofs.Analysis.Relinking

/-!
# Qualified names of requests and replies

The message of a request or a reply may be qualified with a package.  If that is the program's own
package, the message is looked for in the program and nowhere else, even where other programs of the
package are imported; otherwise it is looked for in every imported program that declares the
package, whatever name the import goes by.
-/

namespace Idl

open List

/-- The schema declares a message of the given name, at whatever depth. -/
def Schema.DeclaresMessage (schema : Schema) (name : String) : Prop :=
  ∃ path message, schema.message? path = some message ∧ message.name.value = name

namespace Program

variable {arena : Arena} {id : ProgramId} {program : Program} {name package short : String}

/-- The program declares the package and a message of the name, or it declares another package and
imports a program that declares both. -/
def Reaches (arena : Arena) (program : Program) (package short : String) : Prop :=
  if package = program.package then program.schema.DeclaresMessage short
  else ∃ item ∈ program.schema.imports, ∃ id other, arena.imported? item = some (id, other) ∧
    other.package = package ∧ other.schema.DeclaresMessage short

theorem Complete.isSome_findMessage?_iff (h : program.Complete) (htables : program.Tables) :
    (program.scope.findMessage? id name).isSome ↔ program.schema.DeclaresMessage name := by
  simp only [Option.isSome_iff_exists, h.findMessage?_eq_some_iff htables,
    Schema.typeName?_message, Option.map_eq_some_iff]
  constructor
  · rintro ⟨ref, -, message, hmessage, hname⟩
    exact ⟨ref.path, message, hmessage, hname⟩
  · rintro ⟨path, message, hmessage, hname⟩
    exact ⟨⟨id, path⟩, rfl, message, hmessage, hname⟩

theorem Linked.mem_flatMap_iff (h : program.Linked arena) {i : ProgramId} :
    i ∈ (program.references.getD []).flatMap (·.2) ↔
      ∃ item ∈ program.schema.imports, ∃ other, arena.imported? item = some (i, other) := by
  simp only [h.references_eq, Option.getD_some, Arena.grouping, mem_flatMap, mem_map,
    mem_eraseDups]
  constructor
  · rintro ⟨_, ⟨name, -, rfl⟩, hi⟩
    obtain ⟨item, hitem, other, himported, -⟩ := Arena.mem_named_iff.1 (mem_eraseDups.1 hi)
    exact ⟨item, hitem, other, himported⟩
  · rintro ⟨item, hitem, other, himported⟩
    have hnamed : i ∈ arena.named program.schema.imports (item.goesBy other) :=
      Arena.mem_named_iff.2 ⟨item, hitem, other, himported, rfl⟩
    exact ⟨_, ⟨_, Arena.mem_names_iff.2 (ne_nil_of_mem hnamed), rfl⟩,
      mem_eraseDups.2 hnamed⟩

theorem isSome_resolveStub?_iff_reaches
    (hcomplete : ∀ other ∈ arena, other.Complete ∧ other.Tables)
    (hprogram : arena[id]? = some program) (hlinked : program.Linked arena)
    (hname : splitLastDot? name = some (package, short)) :
    (program.resolveStub? arena id name).isSome ↔ program.Reaches arena package short := by
  have hfind : ∀ {i : ProgramId} {other : Program}, arena[i]? = some other →
      ((other.scope.findMessage? i short).isSome ↔ other.schema.DeclaresMessage short) :=
    fun hother => (hcomplete _ (mem_of_getElem? hother)).1.isSome_findMessage?_iff
      (hcomplete _ (mem_of_getElem? hother)).2
  rw [resolveStub?, hname, Reaches]
  dsimp only
  split
  next => exact hfind hprogram
  next =>
    rw [findSome?_isSome_iff]
    constructor
    · rintro ⟨i, hi, hfound⟩
      obtain ⟨item, hitem, other, himported⟩ := hlinked.mem_flatMap_iff.1 hi
      have hother := (Arena.imported?_eq_some_iff.1 himported).2
      rw [hother, Option.bind_some] at hfound
      split at hfound
      next hpackage =>
        exact ⟨item, hitem, i, other, himported, hpackage, (hfind hother).1 hfound⟩
      next => cases hfound
    · rintro ⟨item, hitem, i, other, himported, hpackage, hdeclares⟩
      have hother := (Arena.imported?_eq_some_iff.1 himported).2
      refine ⟨i, hlinked.mem_flatMap_iff.2 ⟨item, hitem, other, himported⟩, ?_⟩
      rw [hother, Option.bind_some, if_pos hpackage]
      exact (hfind hother).2 hdeclares

/-- What is found for a qualified name is a message of a program of the package. -/
theorem exists_of_resolveStub?
    (htables : ∀ other ∈ arena, other.Tables) (hprogram : arena[id]? = some program)
    (hname : splitLastDot? name = some (package, short)) {ref : MessageRef}
    (h : program.resolveStub? arena id name = some ref) :
    ∃ other message, arena[ref.program]? = some other ∧ other.package = package ∧
      other.schema.message? ref.path = some message ∧ message.name.value = short := by
  have hfind : ∀ {i : ProgramId} {other : Program}, arena[i]? = some other →
      other.package = package → other.scope.findMessage? i short = some ref →
      ∃ other message, arena[ref.program]? = some other ∧ other.package = package ∧
        other.schema.message? ref.path = some message ∧ message.name.value = short := by
    intro i other hother hpackage hfound
    obtain ⟨path, hpath, rfl⟩ := Option.map_eq_some_iff.1 hfound
    have htype := (htables other (mem_of_getElem? hother)).messages short path
      (Assoc.mem_of_lookup_eq_some hpath)
    rw [Schema.typeName?_message] at htype
    obtain ⟨message, hmessage, hshort⟩ := Option.map_eq_some_iff.1 htype
    exact ⟨other, message, hother, hpackage, hmessage, hshort⟩
  rw [resolveStub?, hname] at h
  dsimp only at h
  split at h
  next hpackage => exact hfind hprogram hpackage.symm h
  next =>
    obtain ⟨i, -, hfound⟩ := exists_of_findSome?_eq_some h
    obtain ⟨other, hother, hfound⟩ := Option.bind_eq_some_iff.1 hfound
    split at hfound
    next hpackage => exact hfind hother hpackage hfound
    next => cases hfound

/-! ## What is reported -/

theorem Misses.resolveStub?_eq_none
    {written : Located String} {place : Place}
    (h : program.Misses arena id (.methodMessage written place)) :
    program.resolveStub? arena id written.value = none := by
  rcases h.exists_part with ⟨message, place', hmisses⟩ |
    ⟨path, message, field, -, _, -, -, -, hfault⟩
  · cases message with
    | inline message =>
      obtain ⟨_, -, _, -, -, -, hfault⟩ := hmisses
      cases hfault
    | stub name target =>
      obtain ⟨-, hresolve, hfault⟩ := hmisses
      cases hfault
      exact hresolve
  · cases hfault

end Program

/-- In an arena that any passes have made, let all programs have passed the check of their
definitions, and let the imports of one of them be linked.  The qualified name of a request or a
reply stands for a message of that name in a program of that package, and it does so exactly if such
a message is reached: in the program itself if it declares the package, and otherwise in what it
imports.  Binding reports such a name only if it is not reached, and fails on any that is not. -/
theorem Arena.qualified_stub_found_iff_reached
    {passes : List Pass} {id : ProgramId} {program : Program} {name package short : String}
    (hcleared : ∀ i < (afterAll passes).length, Cleared passes i)
    (hprogram : (afterAll passes)[id]? = some program) (hlinked : program.references.isSome)
    (hname : splitLastDot? name = some (package, short)) :
    ((program.resolveStub? (afterAll passes) id name).isSome ↔
      program.Reaches (afterAll passes) package short) ∧
    (∀ ref, program.resolveStub? (afterAll passes) id name = some ref →
      ∃ other message, (afterAll passes)[ref.program]? = some other ∧ other.package = package ∧
        other.schema.message? ref.path = some message ∧ message.name.value = short) ∧
    ∀ written : Located String, written.value = name →
      (∀ place, (program.bindReferences (afterAll passes) id).2 =
          some (.methodMessage written place) →
        ¬program.Reaches (afterAll passes) package short) ∧
      (.stub written none ∈ program.schema.methodMessages →
        ¬program.Reaches (afterAll passes) package short →
        (program.bindReferences (afterAll passes) id).2 ≠ none) := by
  have htables : ∀ other ∈ afterAll passes, other.Tables :=
    fun other hother => (sound_afterAll passes other hother).toTables
  have hcomplete : ∀ other ∈ afterAll passes, other.Complete ∧ other.Tables := by
    intro other hother
    obtain ⟨i, hi⟩ := mem_iff_getElem?.1 hother
    exact ⟨(hcleared i (lt_of_getElem? hi)).complete hi, htables other hother⟩
  have hreaches := Program.isSome_resolveStub?_iff_reaches hcomplete hprogram
    (linked_afterAll passes hprogram hlinked) hname
  refine ⟨hreaches, fun ref => Program.exists_of_resolveStub? htables hprogram hname, ?_⟩
  rintro written rfl
  refine ⟨fun place hfault => ?_, fun hstub hreached => ?_⟩
  · have hnone := ((program.reports_bindReferences _ id).fault _ hfault).resolveStub?_eq_none
    rw [← hreaches, hnone]
    exact Bool.false_ne_true
  · refine Program.bindReferences_ne_none hstub fun place => ⟨_, rfl, ?_, rfl⟩
    rwa [← hreaches, Option.not_isSome_iff_eq_none] at hreached

/-- Two programs are checked one after the other, and nothing is read later on. -/
theorem Cleared.of_two
    (loads : List Pass) {rest : List Pass} {config config' : ParseConfig}
    (h : (Arena.afterAll (loads ++
        .checkDefinitions config 0 :: .checkDefinitions config' 1 :: rest)).length = 2 ∧
      ((Arena.afterAll loads)[0]?.any fun program =>
        (program.checkDefinitions config).2.isNone) ∧
      (Arena.afterAll (loads ++ [.checkDefinitions config 0]))[1]?.any fun program =>
        (program.checkDefinitions config').2.isNone) :
    ∀ i < (Arena.afterAll (loads ++
      .checkDefinitions config 0 :: .checkDefinitions config' 1 :: rest)).length,
      Cleared (loads ++ .checkDefinitions config 0 :: .checkDefinitions config' 1 :: rest) i := by
  obtain ⟨hlength, hfirst, hsecond⟩ := h
  rw [hlength]
  intro i hi
  obtain rfl | rfl : i = 0 ∨ i = 1 := by omega
  · exact .of_any loads config _ hfirst
  · rw [append_cons]
    exact .of_any _ config' rest hsecond

/-- A program with a message of its own, which imports one that is nested in another. -/
def qualifyingPasses : List Pass :=
  [.load "a.proto" .protobuf ⟨false⟩ "package q; import \"b.proto\"; message m { int32 f = 1; }",
    .load "b.proto" .protobuf ⟨false⟩ "package p; message a { message n { int32 f = 1; } }",
    .checkDefinitions ⟨false⟩ 0, .checkDefinitions ⟨false⟩ 1, .bindImport 0 1 0, .linkImports 0]

theorem Arena.qualified_stub_found_iff_reached_qualifying :
    ∃ program, (afterAll qualifyingPasses)[0]? = some program ∧ program.package = "q" ∧
      (∀ i < (afterAll qualifyingPasses).length, Cleared qualifyingPasses i) ∧
      program.references.isSome ∧ program.Reaches (afterAll qualifyingPasses) "q" "m" ∧
      program.Reaches (afterAll qualifyingPasses) "p" "n" ∧
      ¬program.Reaches (afterAll qualifyingPasses) "p" "m" := by
  have hcleared : ∀ i < (afterAll qualifyingPasses).length, Cleared qualifyingPasses i :=
    .of_two (qualifyingPasses.take 2) (by decide +kernel)
  have hfinds : ((afterAll qualifyingPasses)[0]?.map fun program =>
      (program.package, program.references.isSome,
        ["q.m", "p.n", "p.m"].map fun name =>
          (program.resolveStub? (afterAll qualifyingPasses) 0 name).isSome)) =
      some ("q", true, [true, true, false]) := by
    decide +kernel
  obtain ⟨program, hprogram, hresult⟩ := Option.map_eq_some_iff.1 hfinds
  simp only [Prod.mk.injEq, map_cons, map_nil, List.cons.injEq, and_true] at hresult
  obtain ⟨hpackage, hlinked, hown, himported, hneither⟩ := hresult
  have hsplit : splitLastDot? "p.m" = some ("p", "m") := by decide
  refine ⟨program, hprogram, hpackage, hcleared, hlinked, ?_, ?_, ?_⟩
  · exact (qualified_stub_found_iff_reached hcleared hprogram hlinked (by decide)).1.1 hown
  · exact (qualified_stub_found_iff_reached hcleared hprogram hlinked (by decide)).1.1 himported
  · rw [← (qualified_stub_found_iff_reached hcleared hprogram hlinked hsplit).1, hneither]
    exact Bool.false_ne_true

/-- A request and a reply of a message that another program of the same package declares. -/
def samePackagePasses : List Pass :=
  [.load "a.proto" .protobuf ⟨false⟩
      "package p; import \"b.proto\"; service s { rpc g(p.t) returns (p.t); }",
    .load "b.proto" .protobuf ⟨false⟩ "package p; message t { int32 n = 1; }",
    .checkDefinitions ⟨false⟩ 0, .checkDefinitions ⟨false⟩ 1, .bindImport 0 1 0, .linkImports 0]

/-- The imported program declares the package and the message, which is reported all the same. -/
theorem Arena.qualified_stub_reported_samePackage :
    ∃ (program other : Program) (item : Import),
      (afterAll samePackagePasses)[0]? = some program ∧
      (∀ i < (afterAll samePackagePasses).length, Cleared samePackagePasses i) ∧
      program.references.isSome ∧ item ∈ program.schema.imports ∧
      (afterAll samePackagePasses).imported? item = some (1, other) ∧ other.package = "p" ∧
      other.schema.DeclaresMessage "t" ∧
      (program.bindReferences (afterAll samePackagePasses) 0).2 =
        some (.methodMessage ⟨"p.t", ⟨47, 50, by decide⟩⟩ (.request "s" "g")) := by
  have hcleared : ∀ i < (afterAll samePackagePasses).length, Cleared samePackagePasses i :=
    .of_two (samePackagePasses.take 2) (by decide +kernel)
  have hfails : (afterAll samePackagePasses)[0]?.any fun program =>
      (afterAll samePackagePasses)[1]?.any fun other =>
      program.references.isSome && program.schema.imports.any (·.target == some 1) &&
      other.package == "p" && (other.schema.message? [0]).any (·.name.value == "t") &&
      (program.bindReferences (afterAll samePackagePasses) 0).2 ==
        some (.methodMessage ⟨"p.t", ⟨47, 50, by decide⟩⟩ (.request "s" "g")) := by
    decide +kernel
  simp only [Option.any_eq_true, Bool.and_eq_true, any_eq_true, beq_iff_eq] at hfails
  obtain ⟨program, hprogram, other, hother, ⟨⟨⟨hlinked, item, hitem, htarget⟩, hpackage⟩, message,
    hmessage, hname⟩, hfault⟩ := hfails
  exact ⟨program, other, item, hprogram, hcleared, hlinked, hitem,
    imported?_eq_some_iff.2 ⟨htarget, hother⟩, hpackage, ⟨[0], message, hmessage, hname⟩, hfault⟩

end Idl

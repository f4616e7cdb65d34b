import Idl.Proofs.Analysis.Grouping
import Mathlib.Data.Set.Insert

/-!
# What programs see of each other

Of the programs that it imports, a program sees the packages and the scopes.  Both are complete when
a program is registered, before its own imports are followed, and neither mentions a number.  The
main statement is that linking succeeds in one arena exactly if it does in another, when the imports
are bound to programs that look alike.
-/

namespace Idl

open List

variable {id : ProgramId} {ids : List ProgramId} {program : Program}

/-- What other programs see of a program. -/
def Program.outline (program : Program) : String × Scope := (program.package, program.scope)

theorem Program.outline_eq_of_forget {program' : Program} (h : program'.forget = program.forget) :
    program'.outline = program.outline := by
  have houtline : program'.forget.outline = program.forget.outline := congrArg outline h
  exact houtline

namespace Arena

variable {arena arena' : Arena}

/-- The outlines of the programs of some numbers. -/
def outlines (arena : Arena) (ids : List ProgramId) : Set (String × Scope) :=
  {outline | ∃ id ∈ ids, ∃ program, arena[id]? = some program ∧ program.outline = outline}

/-- The outlines that each name of an import stands for. -/
def outlineTable (arena : Arena) (references : Assoc String (List ProgramId)) :
    Assoc String (Set (String × Scope)) :=
  references.map fun entry => (entry.1, arena.outlines entry.2)

/-- What linking sees of an import: its local name, and the program that it is bound to. -/
def importOutline (arena : Arena) (item : Import) : Option String × Option (String × Scope) :=
  (item.localName.map (·.value), (arena.imported? item).map (·.2.outline))

theorem mem_outlines_iff {outline : String × Scope} :
    outline ∈ arena.outlines ids ↔ ∃ id ∈ ids, arena[id]?.map Program.outline = some outline := by
  simp [outlines, Option.map_eq_some_iff]

theorem outlines_set
    (h : ∀ old, arena[id]? = some old → old.outline = program.outline) (ids : List ProgramId) :
    outlines (arena.set id program) ids = arena.outlines ids := by
  have hset : ∀ i : ProgramId,
      (arena.set id program)[i]?.map Program.outline = arena[i]?.map Program.outline := by
    intro i
    by_cases hi : id = i
    · subst hi
      cases hold : arena[id]? with
      | none => simpa using hold
      | some old => simp [lt_of_getElem? hold, h old hold]
    · rw [getElem?_set_ne hi]
  ext outline
  simp only [mem_outlines_iff, hset]

theorem outlineTable_set
    (h : ∀ old, arena[id]? = some old → old.outline = program.outline)
    (references : Assoc String (List ProgramId)) :
    outlineTable (arena.set id program) references = arena.outlineTable references := by
  simp only [outlineTable, outlines_set h]

theorem lookup_outlineTable
    (arena : Arena) (references : Assoc String (List ProgramId)) (name : String) :
    (arena.outlineTable references).lookup name = (references.lookup name).map arena.outlines :=
  Assoc.lookup_map_values arena.outlines references name

theorem outlines_flatMap (arena : Arena) (references : Assoc String (List ProgramId)) :
    arena.outlines (references.flatMap (·.2)) =
      {outline | ∃ entry ∈ arena.outlineTable references, outline ∈ entry.2} := by
  ext outline
  simp only [outlines, outlineTable, mem_flatMap, Set.mem_ofPred_eq, mem_map]
  constructor
  · rintro ⟨id, ⟨entry, hentry, hid⟩, hprogram⟩
    exact ⟨_, ⟨entry, hentry, rfl⟩, id, hid, hprogram⟩
  · rintro ⟨_, ⟨entry, hentry, rfl⟩, id, hid, hprogram⟩
    exact ⟨id, ⟨entry, hentry, hid⟩, hprogram⟩

/-! ## Linking -/

/-- Linking that succeeds in one arena succeeds in another where the imports look alike, and leaves
tables that look alike. -/
theorem linkFrom_eq_ok_of_outlines
    {linked : Assoc String (List ProgramId)} {imports imports' : List Import}
    (himports : imports'.map arena'.importOutline = imports.map arena.importOutline)
    (h : arena.linkFrom [] imports = .ok linked) :
    ∃ linked', arena'.linkFrom [] imports' = .ok linked' ∧
      arena'.outlineTable linked' = arena.outlineTable linked := by
  have hseen : imports'.map arena'.importPackage = imports.map arena.importPackage := by
    have hpackages := congrArg (List.map fun seen => (seen.1, seen.2.map Prod.fst)) himports
    simp only [map_map, Function.comp_def, importOutline, Option.map_map] at hpackages
    exact hpackages
  have htable : ∀ (arena : Arena) (imports : List Import),
      arena.outlineTable (arena.grouping imports) = (arena.names imports).eraseDups.map fun name =>
        (name, {outline | ∃ seen ∈ imports.map arena.importOutline,
          seen.2 = some outline ∧ seen.1.getD outline.1 = name}) := by
    intro arena imports
    rw [outlineTable, grouping, map_map]
    refine map_congr_left fun name _ => Prod.ext rfl (Set.ext fun outline => ?_)
    dsimp only [Function.comp_apply]
    simp only [outlines, mem_eraseDups, mem_named_iff, Set.mem_ofPred_eq, mem_map,
      exists_exists_and_eq_and, importOutline, Option.map_eq_some_iff, Prod.exists]
    constructor
    · rintro ⟨id, ⟨item, hitem, program, himported, hname⟩, other, hother, rfl⟩
      cases (imported?_eq_some_iff.1 himported).2.symm.trans hother
      exact ⟨item, hitem, ⟨id, program, himported, rfl⟩, hname⟩
    · rintro ⟨item, hitem, ⟨id, program, himported, rfl⟩, hname⟩
      exact ⟨id, ⟨item, hitem, program, himported, hname⟩, program,
        (imported?_eq_some_iff.1 himported).2, rfl⟩
  obtain ⟨-, -, rfl⟩ := linkFrom_eq_ok_iff.1 h
  refine ⟨_, linkFrom_congr hseen h, ?_⟩
  rw [htable, htable, names_congr hseen, himports]

/-! ## Resolving -/

/-- Whether anything is found among programs depends on their outlines only, if what is looked for
does not depend on numbers. -/
theorem isSome_findSome?_eq
    {α : Type} (find : ProgramId → String × Scope → Option α)
    (hfind : ∀ id id' outline, (find id outline).isSome = (find id' outline).isSome)
    {ids' : List ProgramId} (h : arena'.outlines ids' = arena.outlines ids) :
    (ids'.findSome? fun id => arena'[id]?.bind fun program => find id program.outline).isSome =
      (ids.findSome? fun id => arena[id]?.bind fun program => find id program.outline).isSome := by
  have hiff : ∀ (arena : Arena) (ids : List ProgramId),
      (ids.findSome? fun id => arena[id]?.bind fun program => find id program.outline).isSome ↔
        ∃ outline ∈ arena.outlines ids, (find 0 outline).isSome := by
    intro arena ids
    rw [findSome?_isSome_iff]
    constructor
    · rintro ⟨id, hid, hfound⟩
      cases hprogram : arena[id]? with
      | none => simp [hprogram] at hfound
      | some program =>
        rw [hprogram, Option.bind_some, hfind id 0] at hfound
        exact ⟨program.outline, ⟨id, hid, program, hprogram, rfl⟩, hfound⟩
    · rintro ⟨_, ⟨id, hid, program, hprogram, rfl⟩, hfound⟩
      refine ⟨id, hid, ?_⟩
      rw [hprogram, Option.bind_some, hfind id 0]
      exact hfound
  rw [Bool.eq_iff_iff, hiff, hiff, h]

end Arena

theorem Scope.isSome_findMessage?_eq (scope : Scope) (id id' : ProgramId) (name : String) :
    (scope.findMessage? id name).isSome = (scope.findMessage? id' name).isSome := by
  simp only [findMessage?, Option.isSome_map]

theorem Scope.isSome_find?_eq (scope : Scope) (id id' : ProgramId) (name : String) :
    (scope.find? id name).isSome = (scope.find? id' name).isSome := by
  unfold find? findMessage?
  cases scope.messages.lookup name <;> simp

namespace Program

variable {arena arena' : Arena} {id id' : ProgramId} {program program' : Program}

/-- Whether a type name stands for anything depends on outlines only. -/
theorem isSome_resolve?_eq
    (houtline : program'.outline = program.outline)
    (hreferences : program'.references.map arena'.outlineTable =
      program.references.map arena.outlineTable) (type : TypeName) :
    (program'.resolve? arena' id' type).isSome = (program.resolve? arena id type).isSome := by
  have hpackage : program'.package = program.package := congrArg Prod.fst houtline
  have hscope : program'.scope = program.scope := congrArg Prod.snd houtline
  unfold resolve?
  cases type.qualified? with
  | none =>
    simp only [hscope]
    exact program.scope.isSome_find?_eq id' id _
  | some split =>
    obtain ⟨reference, name⟩ := split
    have hlookup : (program'.references.bind (·.lookup reference)).map arena'.outlines =
        (program.references.bind (·.lookup reference)).map arena.outlines := by
      have := congrArg (·.bind (List.lookup reference)) hreferences
      simpa [Option.bind_map, Function.comp_def, Arena.lookup_outlineTable, Option.map_bind]
        using this
    cases hids : program.references.bind (·.lookup reference) with
    | none =>
      rw [hids, Option.map_none, Option.map_eq_none_iff] at hlookup
      simp only [hids, hlookup, hpackage, hscope]
      split
      · exact program.scope.isSome_find?_eq id' id _
      · rfl
    | some ids =>
      rw [hids, Option.map_some, Option.map_eq_some_iff] at hlookup
      obtain ⟨ids', hids', hsame⟩ := hlookup
      simp only [hids, hids']
      exact Arena.isSome_findSome?_eq (fun id outline => outline.2.find? id name)
        (fun id id' outline => outline.2.isSome_find?_eq id id' name) hsame

theorem isSome_resolveStub?_eq
    (houtline : program'.outline = program.outline)
    (hreferences : program'.references.map arena'.outlineTable =
      program.references.map arena.outlineTable) (name : String) :
    (program'.resolveStub? arena' id' name).isSome =
      (program.resolveStub? arena id name).isSome := by
  have hpackage : program'.package = program.package := congrArg Prod.fst houtline
  have hscope : program'.scope = program.scope := congrArg Prod.snd houtline
  unfold resolveStub?
  cases splitLastDot? name with
  | none =>
    simp only [hscope]
    exact program.scope.isSome_findMessage?_eq id' id _
  | some split =>
    obtain ⟨package, short⟩ := split
    simp only [hpackage, hscope]
    split
    · exact program.scope.isSome_findMessage?_eq id' id _
    · have houtlines : arena'.outlines ((program'.references.getD []).flatMap (·.2)) =
          arena.outlines ((program.references.getD []).flatMap (·.2)) := by
        have htable : arena'.outlineTable (program'.references.getD []) =
            arena.outlineTable (program.references.getD []) := by
          have := congrArg (·.getD []) hreferences
          cases hold : program.references <;> cases hnew : program'.references <;>
            simp_all [Arena.outlineTable]
        rw [Arena.outlines_flatMap, Arena.outlines_flatMap, htable]
      refine Arena.isSome_findSome?_eq
        (fun id outline => if outline.1 = package then outline.2.findMessage? id short else none)
        (fun id id' outline => ?_) houtlines
      split
      · exact outline.2.isSome_findMessage?_eq id id' short
      · rfl

end Program

end Idl

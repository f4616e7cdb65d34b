import Idl.Proofs.Analysis.Passes
import Idl.Proofs.FirstOccurrence

/-!
# Imports by name

Linking goes through the imports in order and checks each of them against the programs that were
gathered under its name before.  The outcome depends on the imports as a whole: they can be linked
if all of them are bound and those of one name agree on the package, and then every name has the
programs that are imported under it, each where it first came.
-/

namespace Idl

open List

/-- The name that an import goes by when it is bound to the program. -/
def Import.goesBy (item : Import) (program : Program) : String :=
  (item.localName.map (·.value)).getD program.package

namespace Arena

variable {arena arena' : Arena} {references linked : Assoc String (List ProgramId)} {item : Import}
  {imports imports' : List Import} {id : ProgramId} {program : Program} {name : String}

theorem imported?_eq_some_iff :
    arena.imported? item = some (id, program) ↔
      item.target = some id ∧ arena[id]? = some program := by
  simp only [imported?, Option.bind_eq_bind, Option.bind_eq_some_iff, Option.pure_def,
    Option.some.injEq, Prod.mk.injEq]
  constructor
  · rintro ⟨_, htarget, _, hprogram, rfl, rfl⟩
    exact ⟨htarget, hprogram⟩
  · rintro ⟨htarget, hprogram⟩
    exact ⟨id, htarget, program, hprogram, rfl, rfl⟩

/-- The programs that imports bring in under a name. -/
def named (arena : Arena) (imports : List Import) (name : String) : List ProgramId :=
  imports.filterMap fun item => (arena.imported? item).bind fun found =>
    if (item.localName.map (·.value)).getD found.2.package = name then some found.1 else none

/-- The names that the imports go by, as far as they are bound. -/
def names (arena : Arena) (imports : List Import) : List String :=
  imports.filterMap fun item => (arena.imported? item).map fun found => item.goesBy found.2

/-- Each name that an import goes by, in the order of first use, with the programs that are imported
under it, each of them once. -/
def grouping (arena : Arena) (imports : List Import) : Assoc String (List ProgramId) :=
  (arena.names imports).eraseDups.map fun name => (name, (arena.named imports name).eraseDups)

/-- Imports of one name are bound to programs of one package. -/
def Agree (arena : Arena) (imports : List Import) : Prop :=
  ∀ item ∈ imports, ∀ item' ∈ imports, ∀ found ∈ arena.imported? item,
    ∀ found' ∈ arena.imported? item', item.goesBy found.2 = item'.goesBy found'.2 →
      found.2.package = found'.2.package

/-! ## What linking gathers -/

theorem mem_named_iff :
    id ∈ arena.named imports name ↔ ∃ item ∈ imports, ∃ program,
      arena.imported? item = some (id, program) ∧ item.goesBy program = name := by
  simp only [named, mem_filterMap, Option.bind_eq_some_iff, Option.ite_none_right_eq_some,
    Option.some.injEq, Prod.exists]
  constructor
  · rintro ⟨item, hitem, _, program, himported, hname, rfl⟩
    exact ⟨item, hitem, program, himported, hname⟩
  · rintro ⟨item, hitem, program, himported, hname⟩
    exact ⟨item, hitem, id, program, himported, hname, rfl⟩

theorem mem_names_iff : name ∈ arena.names imports ↔ arena.named imports name ≠ [] := by
  simp only [names, mem_filterMap, Option.map_eq_some_iff, Prod.exists]
  constructor
  · rintro ⟨item, hitem, id, program, himported, hname⟩
    exact ne_nil_of_mem (mem_named_iff.2 ⟨item, hitem, program, himported, hname⟩)
  · intro hnamed
    obtain ⟨id, hid⟩ := exists_mem_of_ne_nil _ hnamed
    obtain ⟨item, hitem, program, himported, hname⟩ := mem_named_iff.1 hid
    exact ⟨item, hitem, id, program, himported, hname⟩

theorem lookup_grouping (arena : Arena) (imports : List Import) (name : String) :
    (arena.grouping imports).lookup name =
      if arena.named imports name = [] then none
      else some (arena.named imports name).eraseDups := by
  rw [grouping, Assoc.lookup_map_key]
  simp only [mem_eraseDups, mem_names_iff, ite_not]

theorem getD_lookup_grouping (arena : Arena) (imports : List Import) (name : String) :
    ((arena.grouping imports).lookup name).getD [] = (arena.named imports name).eraseDups := by
  rw [lookup_grouping]
  split
  next hnil => rw [hnil]; rfl
  next => rfl

theorem keys_grouping (arena : Arena) (imports : List Import) :
    (arena.grouping imports).map (·.1) = (arena.names imports).eraseDups := by
  rw [grouping, map_map]
  exact map_id _

theorem named_concat
    (himported : arena.imported? item = some (id, program)) (before : List Import) (name : String) :
    arena.named (before ++ [item]) name =
      arena.named before name ++ if item.goesBy program = name then [id] else [] := by
  rw [named, filterMap_append, ← named]
  by_cases hname : item.goesBy program = name
  · have hgoesBy := hname
    rw [Import.goesBy] at hgoesBy
    simp [himported, hname, hgoesBy]
  · have hgoesBy := hname
    rw [Import.goesBy] at hgoesBy
    simp [himported, hname, hgoesBy]

/-- One more import joins the group of its name. -/
theorem put_grouping
    (himported : arena.imported? item = some (id, program)) (before : List Import) :
    let ids := ((arena.grouping before).lookup (item.goesBy program)).getD []
    (arena.grouping before).put (item.goesBy program)
      (if ids.contains id then ids else ids ++ [id]) = arena.grouping (before ++ [item]) := by
  intro ids
  have hnames : arena.names (before ++ [item]) = arena.names before ++ [item.goesBy program] := by
    simp [names, himported]
  have hkeys : ∀ ids, ((arena.grouping before).put (item.goesBy program) ids).map (·.1) =
      (arena.grouping (before ++ [item])).map (·.1) := by
    intro ids
    rw [keys_grouping, hnames, eraseDups_concat, ← keys_grouping]
    split
    next hmem =>
      exact Assoc.map_fst_put (by rwa [keys_grouping, mem_eraseDups]) ids
    next hnew =>
      have hnone : (arena.grouping before).lookup (item.goesBy program) = none := by
        rw [lookup_grouping, if_pos]
        exact Decidable.byContradiction fun hne => hnew (mem_names_iff.2 hne)
      rw [Assoc.put_eq_append_of_lookup_eq_none hnone, map_append]
      rfl
  refine Assoc.eq_of_lookup_eq ?_ (hkeys _) fun name => ?_
  · rw [hkeys, keys_grouping]
    exact nodup_eraseDups _
  · rw [Assoc.lookup_put, lookup_grouping, lookup_grouping, named_concat himported]
    by_cases hname : item.goesBy program = name
    · subst hname
      simp [ids, getD_lookup_grouping, eraseDups_concat]
    · simp [hname, beq_false_of_ne (Ne.symm hname)]

/-! ## When imports can be linked -/

/-- What it takes to link one more import. -/
theorem linkFrom_cons_eq_ok_iff :
    arena.linkFrom references (item :: imports) = .ok linked ↔
      ∃ id program, arena.imported? item = some (id, program) ∧
        let ids := (references.lookup (item.goesBy program)).getD []
        (∀ i ∈ ids, ∀ other, arena[i]? = some other → other.package = program.package) ∧
          arena.linkFrom (references.put (item.goesBy program)
            (if ids.contains id then ids else ids ++ [id])) imports = .ok linked := by
  rw [linkFrom]
  obtain ⟨file, localName, doc, target⟩ := item
  split
  next hnone => simp [hnone]
  next id program himported =>
    simp only [himported, Option.some.injEq, Prod.mk.injEq, ↓existsAndEq, true_and, Import.goesBy]
    cases localName
    all_goals
      simp only [Option.map_none, Option.map_some, Option.getD_none, Option.getD_some]
      split
      next other hother =>
        obtain ⟨i, hi, hi'⟩ := mem_filterMap.1 (mem_of_find?_eq_some hother)
        have hne := find?_some hother
        simp only [bne_iff_ne, ne_eq, reduceCtorEq, false_iff, not_and] at hne ⊢
        exact fun hall => absurd (hall i hi other hi') hne
      next hnone =>
        simp only [find?_eq_none, mem_filterMap, bne_iff_ne, ne_eq, not_not] at hnone
        exact ⟨fun h => ⟨fun i hi other hother => hnone other ⟨i, hi, hother⟩, h⟩, fun h => h.2⟩

theorem agree_concat_iff
    (himported : arena.imported? item = some (id, program)) (before : List Import) :
    arena.Agree (before ++ [item]) ↔ arena.Agree before ∧
      ∀ i ∈ ((arena.grouping before).lookup (item.goesBy program)).getD [], ∀ other,
        arena[i]? = some other → other.package = program.package := by
  have hgathered : (∀ i ∈ ((arena.grouping before).lookup (item.goesBy program)).getD [],
      ∀ other, arena[i]? = some other → other.package = program.package) ↔
      ∀ a ∈ before, ∀ found ∈ arena.imported? a, a.goesBy found.2 = item.goesBy program →
        found.2.package = program.package := by
    simp only [getD_lookup_grouping, mem_eraseDups, mem_named_iff, Option.mem_def, Prod.forall]
    constructor
    · exact fun h a ha i p hp hname => h i ⟨a, ha, p, hp, hname⟩ p (imported?_eq_some_iff.1 hp).2
    · rintro h i ⟨a, ha, p, hp, hname⟩ other hother
      cases (imported?_eq_some_iff.1 hp).2.symm.trans hother
      exact h a ha i p hp hname
  rw [hgathered]
  simp only [Agree, forall_mem_append, forall_mem_singleton, himported, Option.mem_some_iff,
    forall_eq', implies_true]
  grind

theorem linkFrom_grouping_eq_ok_iff (before : List Import) (hbefore : arena.Agree before) :
    arena.linkFrom (arena.grouping before) imports = .ok linked ↔
      (∀ item ∈ imports, (arena.imported? item).isSome) ∧ arena.Agree (before ++ imports) ∧
        linked = arena.grouping (before ++ imports) := by
  induction imports generalizing before with
  | nil =>
    rw [linkFrom, append_nil]
    exact ⟨fun h => ⟨forall_mem_nil _, hbefore, (Except.ok.inj h).symm⟩,
      fun h => congrArg Except.ok h.2.2.symm⟩
  | cons item imports ih =>
    have happend : before ++ item :: imports = before ++ [item] ++ imports := by simp
    rw [linkFrom_cons_eq_ok_iff, forall_mem_cons, Option.isSome_iff_exists, happend]
    constructor
    · rintro ⟨id, program, himported, hpackages, hrest⟩
      rw [put_grouping himported] at hrest
      obtain ⟨hbound, hagree⟩ := (ih _ ((agree_concat_iff himported before).2
        ⟨hbefore, hpackages⟩)).1 hrest
      exact ⟨⟨⟨_, himported⟩, hbound⟩, hagree⟩
    · rintro ⟨⟨⟨⟨id, program⟩, himported⟩, hbound⟩, hagree, hlinked⟩
      have hconcat : arena.Agree (before ++ [item]) := fun a ha b hb =>
        hagree a (mem_append_left _ ha) b (mem_append_left _ hb)
      refine ⟨id, program, himported, ((agree_concat_iff himported before).1 hconcat).2, ?_⟩
      rw [put_grouping himported]
      exact (ih _ hconcat).2 ⟨hbound, hagree, hlinked⟩

/-- Imports can be linked if and only if they are bound and agree, and what is linked is their
grouping. -/
theorem linkFrom_eq_ok_iff :
    arena.linkFrom [] imports = .ok linked ↔
      (∀ item ∈ imports, (arena.imported? item).isSome) ∧ arena.Agree imports ∧
        linked = arena.grouping imports :=
  linkFrom_grouping_eq_ok_iff [] (forall_mem_nil _)

/-! ## Imports that look alike -/

/-- What linking sees of an import: its local name, and the package of the program that it is bound
to. -/
def importPackage (arena : Arena) (item : Import) : Option String × Option String :=
  (item.localName.map (·.value), (arena.imported? item).map (·.2.package))

variable (hseen : imports'.map arena'.importPackage = imports.map arena.importPackage)

include hseen

theorem names_congr : arena'.names imports' = arena.names imports := by
  have heq : ∀ (arena : Arena) (imports : List Import), arena.names imports =
      (imports.map arena.importPackage).filterMap fun seen => seen.2.map seen.1.getD := by
    intro arena imports
    simp only [names, filterMap_map, Function.comp_def, importPackage, Option.map_map]
    rfl
  rw [heq, heq, hseen]

theorem linkFrom_congr (h : arena.linkFrom [] imports = .ok linked) :
    arena'.linkFrom [] imports' = .ok (arena'.grouping imports') := by
  have hlinkable : ∀ (arena : Arena) (imports : List Import),
      ((∀ item ∈ imports, (arena.imported? item).isSome) ∧ arena.Agree imports) ↔
        (∀ seen ∈ imports.map arena.importPackage, seen.2.isSome) ∧
        ∀ seen ∈ imports.map arena.importPackage, ∀ seen' ∈ imports.map arena.importPackage,
          ∀ package ∈ seen.2, ∀ package' ∈ seen'.2,
            seen.1.getD package = seen'.1.getD package' → package = package' := by
    intro arena imports
    simp only [Agree, importPackage, Import.goesBy, forall_mem_map, Option.isSome_map,
      Option.mem_def, Option.map_eq_some_iff, forall_exists_index, and_imp,
        forall_apply_eq_imp_iff₂]
  obtain ⟨hbound, hagree, -⟩ := linkFrom_eq_ok_iff.1 h
  have hboth := (hlinkable arena imports).1 ⟨hbound, hagree⟩
  rw [← hseen] at hboth
  obtain ⟨hbound', hagree'⟩ := (hlinkable arena' imports').2 hboth
  exact linkFrom_eq_ok_iff.2 ⟨hbound', hagree', rfl⟩

omit hseen in
/-- Imports under the same names of programs of the same packages are linked alike: under each name
the new numbers are gathered, in the same order. -/
theorem linkFrom_map
    {ρ : ProgramId → ProgramId} (hρ : Function.Injective ρ) {change : Import → Import}
    (hchange : ∀ item ∈ imports, (change item).localName = item.localName ∧
      (arena'.imported? (change item)).map (fun found => (found.1, found.2.package)) =
        (arena.imported? item).map fun found => (ρ found.1, found.2.package))
    (h : arena.linkFrom [] imports = .ok linked) :
    arena'.linkFrom [] (imports.map change) =
      .ok (linked.map fun entry => (entry.1, entry.2.map ρ)) := by
  have hseen : (imports.map change).map arena'.importPackage = imports.map arena.importPackage := by
    rw [map_map]
    refine map_congr_left fun item hitem => ?_
    obtain ⟨hlocal, hfound⟩ := hchange item hitem
    have hpackage := congrArg (Option.map Prod.snd) hfound
    simp only [Option.map_map, Function.comp_def] at hpackage
    simp only [Function.comp_apply, importPackage, hlocal, hpackage]
  have hnamed : ∀ name, arena'.named (imports.map change) name =
      (arena.named imports name).map ρ := by
    intro name
    rw [named, named, filterMap_map, map_filterMap]
    refine filterMap_congr fun item hitem => ?_
    obtain ⟨hlocal, hfound⟩ := hchange item hitem
    have hid := congrArg (Option.bind · fun found =>
      if (item.localName.map (·.value)).getD found.2 = name then some found.1 else none) hfound
    simp only [Option.bind_map, Function.comp_def] at hid
    simp only [Function.comp_apply, hlocal, hid, Option.map_bind]
    congr 1
    funext found
    change _ = Option.map ρ (ite _ _ _)
    split <;> rfl
  obtain ⟨-, -, rfl⟩ := linkFrom_eq_ok_iff.1 h
  rw [linkFrom_congr hseen h, grouping, names_congr hseen, grouping, map_map]
  simp only [hnamed, eraseDups_map hρ]
  rfl

end Arena

namespace Program

/-- The references of the program are what linking its imports gives. -/
def Linked (arena : Arena) (program : Program) : Prop :=
  ∃ references, program.link arena = .ok references ∧ program.references = some references

theorem Linked.references_eq {arena : Arena} {program : Program} (h : program.Linked arena) :
    program.references = some (arena.grouping program.schema.imports) := by
  obtain ⟨references, hlink, hreferences⟩ := h
  rw [hreferences, (Arena.linkFrom_eq_ok_iff.1 hlink).2.2]

end Program

end Idl

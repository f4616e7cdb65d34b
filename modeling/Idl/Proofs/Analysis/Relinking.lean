import Idl.Proofs.Analysis.Grouping
import Idl.Proofs.Analysis.Persistence

/-!
# Linking again

Linking depends on what the imports are bound to and on the packages of those programs, and passes
change neither once all imports are bound.  The main statement says when imports can be linked and
what is stored then, and that linking the program at any later time finds what is stored.
-/

namespace Idl

namespace Program

variable {arena arena' : Arena} {id : ProgramId} {program later : Program}
  {references : Assoc String (List ProgramId)}

theorem link_eq_ok_iff :
    program.link arena = .ok references ↔
      (∀ item ∈ program.schema.imports, (arena.imported? item).isSome) ∧
        arena.Agree program.schema.imports ∧
        references = arena.grouping program.schema.imports :=
  Arena.linkFrom_eq_ok_iff

/-- What could be linked once can be linked later, with the same outcome. -/
theorem link_eq_ok_of_grows
    (h : arena.Grows arena') (hprogram : program.Grows later)
    (hlink : program.link arena = .ok references) : later.link arena' = .ok references := by
  have hfound : ∀ item ∈ program.schema.imports, ∃ id found found',
      arena.imported? item = some (id, found) ∧ arena'.imported? item = some (id, found') ∧
        found'.package = found.package := by
    intro item hitem
    obtain ⟨⟨id, found⟩, himported⟩ :=
      Option.isSome_iff_exists.1 ((link_eq_ok_iff.1 hlink).1 item hitem)
    obtain ⟨htarget, hfound⟩ := Arena.imported?_eq_some_iff.1 himported
    obtain ⟨found', hfound', hgrows⟩ := h id found hfound
    exact ⟨id, found, found', himported, Arena.imported?_eq_some_iff.2 ⟨htarget, hfound'⟩,
      hgrows.package⟩
  have himports : later.schema.imports = program.schema.imports := by
    refine hprogram.imports fun item hitem => ?_
    obtain ⟨id, found, -, himported, -⟩ := hfound item hitem
    rw [(Arena.imported?_eq_some_iff.1 himported).1]
    rfl
  have hlinked : arena'.linkFrom [] (program.schema.imports.map fun item => item) =
      .ok (references.map fun entry => (entry.1, entry.2.map fun id => id)) := by
    refine Arena.linkFrom_map Function.injective_id (fun item hitem => ⟨rfl, ?_⟩) hlink
    obtain ⟨id, found, found', himported, himported', hpackage⟩ := hfound item hitem
    rw [himported, himported', Option.map_some, Option.map_some, hpackage]
    rfl
  simpa [link, himports] using hlinked

theorem Linked.of_grows
    (hlinked : program.Linked arena) (h : arena.Grows arena') (hprogram : program.Grows later) :
    later.Linked arena' := by
  obtain ⟨references, hlink, hreferences⟩ := hlinked
  exact ⟨references, link_eq_ok_of_grows h hprogram hlink,
    hprogram.references references hreferences⟩

theorem Step.linked
    (h : program.Step arena id later) (hnone : program.references = none)
    (hsome : later.references.isSome) : later.Linked arena := by
  cases h with
  | link hlinked =>
    obtain ⟨references, hlink, rfl⟩ := linkImports_eq_ok_iff.1 hlinked
    exact ⟨references, hlink, by simp [hnone]⟩
  | check config =>
    obtain ⟨before, after, -, hchecked, -⟩ := program.exists_checkDefinitions_eq config
    simp [hchecked, hnone] at hsome
  | bind =>
    obtain ⟨services, messages, heq⟩ := program.bindReferences_eq arena id
    simp [heq, hnone] at hsome
  | _ => simp [hnone] at hsome

end Program

/-- The references of a program are at all times what linking its imports gives. -/
theorem Arena.linked_afterAll
    (passes : List Pass) {id : ProgramId} {program : Program}
    (hprogram : (afterAll passes)[id]? = some program) (hsome : program.references.isSome) :
    program.Linked (afterAll passes) := by
  induction passes using List.reverseRecOn generalizing id program with
  | nil => simp [afterAll] at hprogram
  | append_singleton passes pass ih =>
    rw [afterAll_concat] at hprogram ⊢
    have harena := (afterAll passes).grows_after pass
    rcases exists_step_or_parse hprogram with ⟨before, hbefore, hstep⟩ |
      ⟨file, dialect, config, source, schema, -, rfl⟩
    · cases hreferences : before.references with
      | none => exact (hstep.linked hreferences hsome).of_grows harena (.refl program)
      | some references =>
        exact (ih hbefore (by rw [hreferences]; rfl)).of_grows harena hstep.grows
    · cases hsome

/-- The imports of a program can be linked if and only if each of them is bound to a program that is
there and those that go by one name are bound to programs of one package.  The first time, the
grouping of the imports is stored.  Linking that fails changes nothing; and after linking that does
not fail, whatever passes follow, linking again finds the grouping that is stored. -/
theorem Program.linkImports_groups (arena : Arena) (program : Program) :
    ((∃ linked, program.linkImports arena = .ok linked) ↔
      (∀ item ∈ program.schema.imports, (arena.imported? item).isSome) ∧
        arena.Agree program.schema.imports) ∧
    (∀ linked, program.linkImports arena = .ok linked → program.references = none →
      linked = { program with references := some (arena.grouping program.schema.imports) }) ∧
    ∀ id, arena[id]? = some program →
      (∀ fault, program.linkImports arena = .error fault →
        arena.after (.linkImports id) = arena) ∧
      ∀ linked, program.linkImports arena = .ok linked → program.references = none →
        ∀ passes : List Pass, ∃ later,
          (passes.foldl Arena.after (arena.after (.linkImports id)))[id]? = some later ∧
            later.references = some (arena.grouping program.schema.imports) ∧
            later.link (passes.foldl Arena.after (arena.after (.linkImports id))) =
              .ok (arena.grouping program.schema.imports) := by
  have hstored : ∀ linked, program.linkImports arena = .ok linked → program.references = none →
      program.link arena = .ok (arena.grouping program.schema.imports) ∧
      linked = { program with references := some (arena.grouping program.schema.imports) } := by
    intro linked hlinked hnone
    obtain ⟨references, hlink, rfl⟩ := linkImports_eq_ok_iff.1 hlinked
    obtain ⟨-, -, rfl⟩ := link_eq_ok_iff.1 hlink
    exact ⟨hlink, by rw [hnone]; rfl⟩
  refine ⟨⟨?_, ?_⟩, fun linked hlinked hnone => (hstored linked hlinked hnone).2, ?_⟩
  · rintro ⟨linked, hlinked⟩
    obtain ⟨references, hlink, -⟩ := linkImports_eq_ok_iff.1 hlinked
    obtain ⟨hbound, hagree, -⟩ := link_eq_ok_iff.1 hlink
    exact ⟨hbound, hagree⟩
  · rintro ⟨hbound, hagree⟩
    exact ⟨_, linkImports_eq_ok_iff.2 ⟨_, link_eq_ok_iff.2 ⟨hbound, hagree, rfl⟩, rfl⟩⟩
  · intro id hprogram
    refine ⟨fun fault hfault => ?_, fun linked hlinked hnone passes => ?_⟩
    · have hself : arena.set id program = arena := by
        obtain ⟨hlt, rfl⟩ := List.getElem?_eq_some_iff.1 hprogram
        exact List.set_getElem_self hlt
      simpa only [Arena.after, Arena.update, hprogram, hfault] using hself
    · obtain ⟨hlink, hstored⟩ := hstored linked hlinked hnone
      have hafter : (arena.after (.linkImports id))[id]? = some linked := by
        simp [Arena.after, Arena.getElem?_update, hprogram, hlinked]
      have hgrows : program.Grows linked :=
        Step.grows (.link hlinked : Step arena id program linked)
      have hpasses := (arena.after (.linkImports id)).grows_foldl passes
      obtain ⟨later, hlater, hgrows'⟩ := hpasses id linked hafter
      refine ⟨later, hlater, hgrows'.references _ (by rw [hstored]), ?_⟩
      exact link_eq_ok_of_grows ((arena.grows_after _).trans hpasses) (hgrows.trans hgrows') hlink

/-- Three imports of one package: under a local name, under the package, and under a local name that
is the package. -/
def aliasedPasses : List Pass :=
  [.load "a.wproto" .native ⟨false⟩
      "package p import x \"b.wproto\" import \"c.wproto\" import q \"d.wproto\"",
    .load "b.wproto" .native ⟨false⟩ "package q", .load "c.wproto" .native ⟨false⟩ "package q",
    .load "d.wproto" .native ⟨false⟩ "package q",
    .bindImport 0 1 0, .bindImport 1 2 0, .bindImport 2 3 0]

theorem Program.linkImports_groups_aliased :
    ∃ program linked later : Program, (Arena.afterAll aliasedPasses)[0]? = some program ∧
      program.references = none ∧ program.linkImports (Arena.afterAll aliasedPasses) = .ok linked ∧
      linked.references = some [("x", [1]), ("q", [2, 3])] ∧
      (Arena.afterAll (aliasedPasses ++ [.linkImports 0, .bindReferences 0, .linkImports 0]))[0]? =
        some later ∧
      later.link (Arena.afterAll (aliasedPasses ++
        [.linkImports 0, .bindReferences 0, .linkImports 0])) =
          .ok [("x", [1]), ("q", [2, 3])] := by
  have hlinks : ((Arena.afterAll aliasedPasses)[0]?.map fun program =>
      (program.references, (program.linkImports (Arena.afterAll aliasedPasses)).isOk,
        (Arena.afterAll aliasedPasses).grouping program.schema.imports)) =
      some (none, true, [("x", [1]), ("q", [2, 3])]) := by
    decide +kernel
  obtain ⟨program, hprogram, hresult⟩ := Option.map_eq_some_iff.1 hlinks
  simp only [Prod.mk.injEq] at hresult
  obtain ⟨hnone, hok, hgrouping⟩ := hresult
  obtain ⟨-, hstored, hkept⟩ := linkImports_groups (Arena.afterAll aliasedPasses) program
  cases hlinked : program.linkImports (Arena.afterAll aliasedPasses) with
  | error fault =>
    rw [hlinked] at hok
    cases hok
  | ok linked =>
    obtain ⟨later, hlater, -, hlink⟩ :=
      (hkept 0 hprogram).2 linked hlinked hnone [.bindReferences 0, .linkImports 0]
    rw [hgrouping] at hlink
    refine ⟨program, linked, later, hprogram, hnone, hlinked, ?_, ?_, ?_⟩
    · rw [hstored linked hlinked hnone, hgrouping]
    · rw [Arena.afterAll, List.foldl_append]
      exact hlater
    · rw [Arena.afterAll, List.foldl_append]
      exact hlink

end Idl

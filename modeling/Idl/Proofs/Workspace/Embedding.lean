import Idl.Proofs.Descriptor.Embedding
import Idl.Proofs.Workspace.Success
import Idl.Proofs.Workspace.Termination

/-!
# Workspaces on the same files

What a workspace holds of a file is decided by the files alone, up to the numbers of programs and
the spelling of names.  Of each program it is known what it was read as, and that linking has made
it what it is; so two workspaces on the same files hold the same programs for the files that both
know, and the programs of one are embedded in the other if the other knows all of its files.
-/

namespace Idl.Workspace

variable {origin program : Program} {id : ProgramId} {name : FileName} {item : String}
variable {files : FileView} {start w w' : Workspace}

/-! ## What linking has made of a program -/

theorem mem_importTargets_bindTo_iff {target : String → Option ProgramId} :
    id ∈ (origin.bindTo target).importTargets ↔
      ∃ item ∈ origin.schema.imports, target item.file.value = some id := by
  simp [Program.importTargets, Program.bindTo, List.mem_filterMap]

theorem schema_bindTo_renumber
    {target target' : String → Option ProgramId} (hfresh : origin.schema.Fresh)
    (htarget : ∀ item ∈ origin.schema.imports, target' item.file.value =
      (target item.file.value).map ρ) :
    (origin.bindTo target').schema = (origin.bindTo target).schema.renumber ρ := by
  have hbound : (origin.bindTo target).schema.Fresh := ⟨hfresh.messages, hfresh.services⟩
  rw [Schema.renumber_of_fresh hbound]
  simp only [Program.bindTo, List.map_map]
  refine congrArg (fun imports => { origin.schema with imports }) ?_
  exact List.map_congr_left fun item hitem => by simp [Import.renumber, htarget item hitem]

theorem Grows.alike (h : Grows w w') {i : ProgramId} (hi : i < w.programs.length) :
    Arena.Alike (fun id => id) w.programs w'.programs i := by
  obtain ⟨program', hprogram', houtline⟩ := h.outlines (List.getElem?_eq_getElem hi)
  rw [Arena.Alike, hprogram', List.getElem?_eq_getElem hi, Option.map_some, Option.map_some,
    houtline]

/-- The program of a number was read as `origin`, and is what came out of linking it without a
fault, with its imports bound as the table of files says, in an arena where they looked as they do
now. -/
structure Made (w : Workspace) (id : ProgramId) (origin : Program) : Prop where
  unlinked : origin.references = none
  known : ∀ item ∈ origin.schema.imports, (w.get? item.file.value).isSome
  linked : ∃ arena linked,
    (∀ i ∈ (origin.bindTo w.get?).importTargets,
      Arena.Alike (fun id => id) arena w.programs i) ∧
    (origin.bindTo w.get?).linkImports arena = .ok linked ∧
    (linked.bindReferences arena id).2 = none ∧
    w.programs[id]? = some (linked.bindReferences arena id).1

theorem Made.mono
    (hw : Indexed w) (h : Made w id origin) (hgrows : Grows w w')
    (hsame : w'.programs[id]? = w.programs[id]?) : Made w' id origin := by
  obtain ⟨arena, linked, halike, hlink, hbound, hprogram⟩ := h.linked
  have hbind := bindTo_eq_of_grows hgrows h.known
  refine ⟨h.unlinked, fun item hitem => hgrows.known (h.known item hitem), arena, linked, ?_, ?_,
    hbound, hsame.trans hprogram⟩
  · rw [hbind]
    intro i hi
    obtain ⟨item, -, htarget⟩ := mem_importTargets_bindTo_iff.1 hi
    exact (hgrows.alike (hw.lt_of_file htarget)).trans (halike i hi)
  · rw [hbind]
    exact hlink

theorem made_of_linkAt
    {file source : String} (hw : Indexed w)
    (hread : w.readProgram files file name = .ok (origin, source))
    (hprogram : w.programs[id]? = some program) (hforget : program.forget = origin.forget)
    (hpending : Pending w.byFile program []) (hlink : w.linkAt id source = .ok w') :
    Made w' id origin := by
  obtain ⟨rfl, hknown⟩ := hpending.eq_bindTo hforget
  have hnames : w'.get? = w.get? := by
    obtain ⟨programs, rfl, -, -⟩ := linkAt_eq_ok hlink
    rfl
  obtain ⟨linked, hlinked, hbound, hprogram'⟩ := linkAt_programs hlink hprogram
  -- type names are looked up when the references of the program itself are set
  have hset : ∀ i < w.programs.length,
      Arena.Alike (fun id => id) w.programs (w.programs.set id linked) i := by
    intro i hi
    by_cases heq : id = i
    · subst heq
      obtain ⟨references, -, rfl⟩ := Program.linkImports_eq_ok_iff.1 hlinked
      rw [Arena.Alike, hprogram, List.getElem?_set_self hi]
      rfl
    · rw [Arena.Alike, List.getElem?_set_ne heq]
  have hlt : ∀ i ∈ (origin.bindTo w.get?).importTargets, i < w.programs.length := by
    intro i hi
    obtain ⟨item, -, htarget⟩ := mem_importTargets_bindTo_iff.1 hi
    exact hw.lt_of_file htarget
  refine ⟨references_of_readProgram hread, ?_, w.programs.set id linked, linked, ?_, ?_, hbound,
    hprogram'⟩
  · rw [hnames]
    exact hknown
  · rw [hnames]
    intro i hi
    exact ((grows_linkAt hlink).alike (hlt i hi)).trans (hset i (hlt i hi)).symm
  · rw [hnames]
    exact Program.linkImports_congr (fun i hi => hset i (hlt i hi)) hlinked

theorem lasting_made (files : FileView) : Lasting files Made where
  mono := fun hw h hgrows hsame => h.mono hw hgrows hsame
  of_linkAt := made_of_linkAt

/-- The workspace is what requests have made of `start` on files that stayed as they are, and of
every program it is known what it was read as. -/
structure Traced (files : FileView) (start w : Workspace) : Prop extends
    Sourced files start w where
  made : ∀ id < w.programs.length, ∃ origin,
    (∃ name, Reads files start origin.file name origin) ∧ Made w id origin

theorem Traced.analyse (hw : Traced files start w) (file : String) :
    Traced files start (w.analyse files file).1 := by
  refine ⟨hw.toSourced.analyse file, ?_⟩
  refine (lasting_made files).analyse hw.faithful.toIndexed hw.made ?_ file
  exact fun origin name hreads => ⟨name, hreads.of_setup hw.setup.symm⟩

/-! ## One file in two workspaces -/

theorem Sourced.origin_of_path
    (hw : Sourced files start w) (hname : w.byPath.lookup name = some id) :
    ∃ program origin, w.programs[id]? = some program ∧ program.file = origin.file ∧
      Reads files start origin.file name origin ∧ program.outline = origin.outline := by
  have hprogram := List.getElem?_eq_getElem (hw.faithful.lt_of_path hname)
  obtain ⟨program, origin, name', hprogram', -, hname', hreads, hfile, houtline⟩ :=
    hw.faithful.path_of_known (hw.faithful.file_of_program hprogram)
  obtain rfl := hw.faithful.path_unique hname hname'
  exact ⟨program, origin, hprogram', hfile, hreads.of_setup hw.setup.symm, houtline⟩

theorem Traced.made_of_path (hw : Traced files start w) (hname : w.byPath.lookup name = some id) :
    ∃ origin, Reads files start origin.file name origin ∧ Made w id origin := by
  obtain ⟨program, origin, hprogram, hfile, hreads, -⟩ := hw.origin_of_path hname
  obtain ⟨origin', ⟨name', hreads'⟩, hmade⟩ := hw.made id (hw.faithful.lt_of_path hname)
  have hfile' : program.file = origin'.file := by
    obtain ⟨arena, linked, -, hlink, -, hprogram'⟩ := hmade.linked
    obtain ⟨references, services, messages, hshape⟩ := linked_eq hlink
    rw [hshape] at hprogram'
    cases hprogram'.symm.trans hprogram
    rfl
  rw [← hfile'.symm.trans hfile] at hreads
  obtain ⟨rfl, rfl⟩ := hreads'.unique hreads
  exact ⟨origin, hreads, hmade⟩

theorem Sourced.path_of_known (hw : Sourced files start w) (hknown : w.get? item = some id) :
    ∃ name, files.resolve (Path.join start.base item) = .ok name ∧
      w.byPath.lookup name = some id := by
  obtain ⟨name, hresolve, hname⟩ := hw.faithful.named hknown
  rw [base_eq_of_setup hw.setup] at hresolve
  exact ⟨name, hresolve, hname⟩

theorem Sourced.outline_eq_of_path
    (hw : Sourced files start w) (hw' : Sourced files start w') (hstart : Uniform files start)
    {id' : ProgramId} (hname : w.byPath.lookup name = some id)
    (hname' : w'.byPath.lookup name = some id') :
    w'.programs[id']?.map Program.outline = w.programs[id]?.map Program.outline := by
  obtain ⟨program, origin, hprogram, -, hreads, houtline⟩ := hw.origin_of_path hname
  obtain ⟨program', origin', hprogram', -, hreads', houtline'⟩ := hw'.origin_of_path hname'
  rw [hprogram, hprogram', Option.map_some, Option.map_some, houtline, houtline',
    hstart.eq_of_reads hreads hreads']
  rfl

theorem Reads.fresh (h : Reads files w item name program) : program.schema.Fresh := by
  obtain ⟨-, dialect, source, schema, -, -, hparse, -, hdefinitions⟩ := h
  have hfresh := fresh_of_parse hparse
  rw [checkDefinitions_eq_none hdefinitions]
  exact ⟨hfresh.messages, hfresh.services⟩

section Renumber

variable {ρ : ProgramId → ProgramId}

/-- A file that both workspaces know is bound to the program of the new number. -/
theorem Sourced.get?_eq_map
    (hw : Sourced files start w) (hw' : Sourced files start w')
    (hpaths : ∀ name id, w.byPath.lookup name = some id → w'.byPath.lookup name = some (ρ id))
    (hknown : (w.get? item).isSome) (hknown' : (w'.get? item).isSome) :
    w'.get? item = (w.get? item).map ρ := by
  obtain ⟨id, hid⟩ := Option.isSome_iff_exists.1 hknown
  obtain ⟨id', hid'⟩ := Option.isSome_iff_exists.1 hknown'
  obtain ⟨name, hresolve, hname⟩ := hw.path_of_known hid
  obtain ⟨name', hresolve', hname'⟩ := hw'.path_of_known hid'
  cases hresolve'.symm.trans hresolve
  rw [hid, hid', ← hname', hpaths name id hname, Option.map_some]

/-- The programs of one path have the same schema, but for the numbers. -/
theorem Traced.schema_eq_of_path
    (hw : Traced files start w) (hw' : Traced files start w') (hstart : Uniform files start)
    (hρ : Function.Injective ρ)
    (hpaths : ∀ name id, w.byPath.lookup name = some id → w'.byPath.lookup name = some (ρ id))
    (hname : w.byPath.lookup name = some id) :
    w'.programs[ρ id]?.map (·.schema) = w.programs[id]?.map (·.schema.renumber ρ) := by
  obtain ⟨origin, hreads, hmade⟩ := hw.made_of_path hname
  obtain ⟨origin', hreads', hmade'⟩ := hw'.made_of_path (hpaths name id hname)
  have horigin := hstart.eq_of_reads hreads hreads'
  have himports : origin'.schema.imports = origin.schema.imports := by rw [horigin]
  obtain ⟨arena, linked, halike, hlink, -, hprogram⟩ := hmade.linked
  obtain ⟨arena', linked', halike', hlink', -, hprogram'⟩ := hmade'.linked
  -- an import is bound to the same file in both, by the number that it has there
  have hget : ∀ item ∈ origin.schema.imports,
      w'.get? item.file.value = (w.get? item.file.value).map ρ := fun item hitem =>
    hw.get?_eq_map hw'.toSourced hpaths (hmade.known item hitem)
      (hmade'.known item (himports ▸ hitem))
  have hschema : (origin'.bindTo w'.get?).schema = (origin.bindTo w.get?).schema.renumber ρ := by
    rw [horigin]
    exact schema_bindTo_renumber hreads.fresh hget
  have hlooks : ∀ i ∈ (origin.bindTo w.get?).importTargets, Arena.Alike ρ arena arena' i := by
    intro i hi
    obtain ⟨item, hitem, htarget⟩ := mem_importTargets_bindTo_iff.1 hi
    obtain ⟨itemName, -, hitemName⟩ := hw.path_of_known htarget
    have hmem : ρ i ∈ (origin'.bindTo w'.get?).importTargets := by
      refine mem_importTargets_bindTo_iff.2 ⟨item, himports ▸ hitem, ?_⟩
      rw [hget item hitem, htarget, Option.map_some]
    calc arena'[ρ i]?.map Program.outline
        = w'.programs[ρ i]?.map Program.outline := (halike' (ρ i) hmem).symm
      _ = w.programs[i]?.map Program.outline :=
        hw.outline_eq_of_path hw'.toSourced hstart hitemName (hpaths itemName i hitemName)
      _ = arena[i]?.map Program.outline := halike i hi
  have hscope : (origin'.bindTo w'.get?).scope = (origin.bindTo w.get?).scope := by
    rw [horigin]
    rfl
  rw [hprogram, hprogram', Option.map_some, Option.map_some,
    Program.schema_bindReferences_renumber hρ hschema hscope hmade.unlinked hmade'.unlinked hlooks
      hlink hlink']

end Renumber

/-! ## Embeddings -/

/-- New numbers for the first programs, each number for one of them, extend to all. -/
theorem exists_injective_extension
    {n m : Nat} {new : ProgramId → ProgramId → Prop} (hnew : ∀ i < n, ∃ j < m, new i j)
    (hapart : ∀ i i' j, new i j → new i' j → i = i') :
    ∃ ρ : ProgramId → ProgramId, Function.Injective ρ ∧ (∀ i < n, new i (ρ i)) ∧
      ∀ i, n ≤ i → m ≤ ρ i := by
  have hall : ∀ i : ProgramId, ∃ j : ProgramId,
      (i < n → j < m ∧ new i j) ∧ (n ≤ i → j = m + i) := by
    intro i
    rcases Nat.lt_or_ge i n with hlt | hge
    · obtain ⟨j, hj, hij⟩ := hnew i hlt
      exact ⟨j, fun _ => ⟨hj, hij⟩, fun hge => absurd hlt (Nat.not_lt.2 hge)⟩
    · exact ⟨_, fun hlt => absurd hlt (Nat.not_lt.2 hge), fun _ => rfl⟩
  choose ρ hinside houtside using hall
  refine ⟨ρ, ?_, fun i hi => (hinside i hi).2, fun i hi => ?_⟩
  · intro i j heq
    rcases Nat.lt_or_ge i n with hi | hi <;> rcases Nat.lt_or_ge j n with hj | hj
    · have hsame := (hinside i hi).2
      rw [heq] at hsame
      exact hapart i j _ hsame (hinside j hj).2
    · have hlt := (hinside i hi).1
      rw [heq, houtside j hj] at hlt
      exact absurd hlt (Nat.not_lt.2 (Nat.le_add_right ..))
    · have hlt := (hinside j hj).1
      rw [← heq, houtside i hi] at hlt
      exact absurd hlt (Nat.not_lt.2 (Nat.le_add_right ..))
    · rw [houtside i hi, houtside j hj] at heq
      exact Nat.add_left_cancel heq
  · rw [houtside i hi]
    exact Nat.le_add_right ..

theorem exists_renumbering
    (hw : Indexed w) (hw' : Indexed w')
    (hpaths : ∀ name id, w.byPath.lookup name = some id → (w'.byPath.lookup name).isSome) :
    ∃ ρ : ProgramId → ProgramId, Function.Injective ρ ∧
      (∀ name id, w.byPath.lookup name = some id → w'.byPath.lookup name = some (ρ id)) ∧
      ∀ id, w.programs.length ≤ id → w'.programs.length ≤ ρ id := by
  have hnew : ∀ id < w.programs.length, ∃ id' < w'.programs.length,
      ∃ name, w.byPath.lookup name = some id ∧ w'.byPath.lookup name = some id' := by
    intro id hlt
    obtain ⟨name, hname⟩ := hw.exists_path hlt
    obtain ⟨id', hid'⟩ := Option.isSome_iff_exists.1 (hpaths name id hname)
    exact ⟨id', hw'.lt_of_path hid', name, hname, hid'⟩
  obtain ⟨ρ, hρ, hinside, houtside⟩ := exists_injective_extension hnew fun i j id' hi hj => by
    obtain ⟨name, hname, hname'⟩ := hi
    obtain ⟨other, hother, hother'⟩ := hj
    obtain rfl := hw'.path_unique hname' hother'
    exact Option.some.inj (hname.symm.trans hother)
  refine ⟨ρ, hρ, fun name id hname => ?_, houtside⟩
  obtain ⟨other, hother, hother'⟩ := hinside id (hw.lt_of_path hname)
  rw [hw.path_unique hname hother]
  exact hother'

/-- A workspace is embedded in every other on the same files that has all its paths. -/
theorem Traced.exists_embeds
    (hw : Traced files start w) (hw' : Traced files start w') (hstart : Uniform files start)
    (hpaths : ∀ name id, w.byPath.lookup name = some id → (w'.byPath.lookup name).isSome) :
    ∃ ρ, Arena.Embeds ρ w.programs w'.programs ∧
      ∀ name id, w.byPath.lookup name = some id → w'.byPath.lookup name = some (ρ id) := by
  obtain ⟨ρ, hρ, hpaths', houtside⟩ :=
    exists_renumbering hw.faithful.toIndexed hw'.faithful.toIndexed hpaths
  refine ⟨ρ, ⟨hρ, fun id => ?_⟩, hpaths'⟩
  rcases Nat.lt_or_ge id w.programs.length with hlt | hge
  · obtain ⟨name, hname⟩ := hw.faithful.exists_path hlt
    exact hw.schema_eq_of_path hw' hstart hρ hpaths' hname
  · rw [List.getElem?_eq_none hge, List.getElem?_eq_none (houtside id hge)]
    rfl

end Idl.Workspace

import Idl.Proofs.Descriptor.Copies
import Idl.Proofs.Files.Outputs
import Idl.Proofs.Workspace.History

/-!
# Outputs are read again

What is printed for the programs of a workspace can be put into files, each under the name of its
output.  These files are an edition of the workspace: from each of them a copy of its program is
read, and the imports of the copies lead to the copies of the imports.  In a workspace that knows
all copies, each of them is bound as its program is when imports go by packages.
-/

namespace Idl

open List

variable {item root file : String} {id : ProgramId} {asked : List String} {name : FileName}
  {program program' : Program}

/-- What is printed for the program means what the program means: its imports have different names,
its type names are not taken for scalars, and it can do without local names. -/
structure Program.Portable (arena : Arena) (id : ProgramId) (program : Program) : Prop where
  imports : (program.schema.imports.map fun item => Proto.fileName item.file.value).Nodup
  custom : ∀ m ∈ program.schema.messages, m.Each TypeName.Custom
  unaliased : program.Unaliased arena id

namespace Workspace

variable {files : FileView} {start w w' : Workspace}

/-! ## Files one after the other -/

theorem Indexed.get?_of_analyseAll
    (hw : Indexed w) {ids : List ProgramId} (h : w.analyseAll files asked = (w', .ok ids)) :
    asked.map w'.get? = ids.map some := by
  fun_induction analyseAll files w asked generalizing w' ids with
  | case1 =>
    obtain ⟨-, hids⟩ := Prod.mk.inj h
    cases hids
    rfl
  | case2 | case3 => cases (Prod.mk.inj h).2
  | case4 w file rest w₁ id hfile w₂ ids' hrest ih =>
    obtain ⟨rfl, hids⟩ := Prod.mk.inj h
    cases hids
    obtain ⟨read, depth, hrun⟩ := exists_run_analyse files w file
    rw [hfile] at hrun
    have hw₁ := (hrun.indexed_extends hw).1
    have hkept := analyseAll_preserves (P := fun w => Indexed w ∧ w.get? file = some id)
      (fun w other hknown => by
        obtain ⟨read, depth, hrun⟩ := exists_run_analyse files w other
        obtain ⟨hnext, hextends⟩ := hrun.indexed_extends hknown.1
        exact ⟨hnext, hextends.names hknown.2⟩) rest ⟨hw₁, hrun.known_of_ok hw⟩
    rw [hrest] at hkept
    rw [map_cons, map_cons, hkept.2, ih hw₁ hrest]

theorem exists_analyseAll_eq_ok
    {P : Workspace → Prop} (hstep : ∀ w file, P w → P (w.analyse files file).1)
    (hok : ∀ w, P w → ∀ file ∈ asked, (w.analyse files file).2.isOk) (hw : P w) :
    ∃ w' ids, w.analyseAll files asked = (w', .ok ids) := by
  induction asked generalizing w with
  | nil => exact ⟨w, [], rfl⟩
  | cons file asked ih =>
    obtain ⟨id, hid⟩ := isOk_iff_exists.1 (hok w hw file mem_cons_self)
    obtain ⟨w', ids, hrest⟩ := ih
      (fun w hw other hother => hok w hw other (mem_cons_of_mem _ hother)) (hstep w file hw)
    have hfile : w.analyse files file = ((w.analyse files file).1, .ok id) := Prod.ext rfl hid
    refine ⟨w', id :: ids, ?_⟩
    rw [Workspace.analyseAll, hfile]
    simp only [hrest]

/-! ## What a program was read as -/

theorem Reads.distinct_tabulated (h : Reads files w file name program) :
    program.schema.Distinct w.config.useMethodId ∧ program.Tabulated := by
  obtain ⟨-, dialect, source, schema, -, -, hparse, -, hchecked⟩ := h
  have hfresh : Schema.Fresh
      { schema with options := Setting.applyAll w.settings schema.options } :=
    ⟨(fresh_of_parse hparse).messages, (fresh_of_parse hparse).services⟩
  obtain ⟨hschema, hdistinct, htabulated⟩ :=
    Program.tabulated_of_checkDefinitions hfresh hchecked
  rw [hschema]
  exact ⟨hdistinct, htabulated⟩

theorem Reads.kept (h : Reads files w file name program) : program.Kept := by
  obtain ⟨-, dialect, source, schema, -, -, hparse, -, hchecked⟩ := h
  rw [checkDefinitions_eq_none hchecked]
  exact (Program.Kept.of_parse hparse file).of_written rfl rfl rfl

section Made

variable {id : ProgramId} {origin program : Program} (h : Made w id origin)
  (hprogram : w.programs[id]? = some program)

include h hprogram

theorem Made.program_eq :
    ∃ references services messages, program = { origin.bindTo w.get? with
        schema := { (origin.bindTo w.get?).schema with services, messages }
        references := some references } ∧
      messages.map (·.unbind) = origin.schema.messages.map (·.unbind) ∧
      ∀ m ∈ messages, m.Each TypeName.Bound := by
  obtain ⟨arena, linked, -, hlink, hbound, hmade⟩ := h.linked
  cases hprogram.symm.trans hmade
  have hrebound : Rebound Schema.unbind Schema.Each (fun _ => True) linked.schema
      ((linked.bindReferences arena id).1.schema, (linked.bindReferences arena id).2) :=
    Program.rebound (fun _ _ _ => trivial) (fun _ _ _ => trivial) fun _ _ _ _ _ _ => trivial
  have hunbind := congrArg Schema.messages hrebound.erase_eq
  have heach := (hrebound.bound hbound).2
  obtain ⟨services, messages, hshape⟩ := linked.bindReferences_eq arena id
  rw [hshape] at hunbind heach ⊢
  obtain ⟨table, -, rfl⟩ := Program.linkImports_eq_ok_iff.1 hlink
  exact ⟨_, services, messages, rfl, hunbind, heach⟩

theorem Made.written_eq : program.schema.written = origin.schema.written := by
  obtain ⟨references, services, messages, rfl, hmessages, -⟩ := h.program_eq hprogram
  refine Schema.written_congr rfl ?_ rfl hmessages
  simp only [Program.bindTo, map_map]
  rfl

theorem Made.kept (horigin : origin.Kept) : program.Kept := by
  have hwritten := h.written_eq hprogram
  obtain ⟨references, services, messages, rfl, -, -⟩ := h.program_eq hprogram
  exact horigin.of_written rfl hwritten rfl

theorem Made.outline_eq : program.outline = origin.outline := by
  obtain ⟨references, services, messages, rfl, -, -⟩ := h.program_eq hprogram
  rfl

theorem Made.imports_eq : program.schema.imports = (origin.bindTo w.get?).schema.imports := by
  obtain ⟨references, services, messages, rfl, -, -⟩ := h.program_eq hprogram
  rfl

theorem Made.exists_target
    (hw : Indexed w) {item : Import} (hitem : item ∈ program.schema.imports) :
    ∃ target < w.programs.length, item.target = some target := by
  rw [h.imports_eq hprogram] at hitem
  obtain ⟨item, hmem, rfl⟩ := mem_map.1 hitem
  obtain ⟨target, htarget⟩ := Option.isSome_iff_exists.1 (h.known item hmem)
  exact ⟨target, hw.lt_of_file htarget, htarget⟩

/-- A program can do without local names if its qualifiers can. -/
theorem Made.unaliased_of_qualifies
    (hw : Indexed w) (hfresh : origin.schema.Fresh) (hqualifies : program.Qualifies w.programs) :
    program.Unaliased w.programs id := by
  have hoffered : ∀ item ∈ program.schema.imports, (w.programs.imported? item).isSome := by
    intro item hitem
    obtain ⟨target, hlt, htarget⟩ := h.exists_target hprogram hw hitem
    exact Option.isSome_iff_exists.2 ⟨_, Arena.imported?_eq_some_iff.2
      ⟨htarget, getElem?_eq_getElem hlt⟩⟩
  have hwritten := h.written_eq hprogram
  have hmessages : program.schema.messages.map (·.unbind) = origin.schema.messages :=
    (congrArg Schema.messages hwritten).trans ((map_congr_left fun m hm =>
      Message.unbind_of_unbound (hfresh.messages m hm)).trans (map_id _))
  have hself : (origin.bindTo w.get?).Mirrors program := by
    have hrefl : origin.Mirrors origin := ⟨rfl, fun _ _ => rfl⟩
    exact hrefl.of_outline rfl (h.outline_eq hprogram)
  have hcopies : Program.Copies (fun id => id) (origin.bindTo w.get?) program.unnamed := by
    refine ⟨⟨hself.package, hself.find⟩, ?_, rfl, ?_, h.unlinked, rfl⟩
    · rw [← h.imports_eq hprogram]
      refine forall₂_map_right_iff.2 (forall₂_same.2 fun item _ => ⟨rfl, ?_⟩)
      exact Option.map_id'.symm
    · exact congrArg (List.map _) hmessages
  obtain ⟨arena, linked, halike, hlink, hbound, hmade⟩ := h.linked
  refine Program.unaliased_of_copies hcopies (Program.Qualifies.of_alike ?_ halike)
    (fun i hi => ?_) hoffered hlink hbound ?_
  · unfold Program.Qualifies at hqualifies ⊢
    rw [h.imports_eq hprogram] at hqualifies
    exact Message.each_of_unbind (fun _ => Iff.rfl) (congrArg Schema.messages hwritten).symm
      hqualifies
  · obtain ⟨item, -, htarget⟩ := mem_importTargets_bindTo_iff.1 hi
    have hlooks := halike i hi
    rw [Arena.Alike, getElem?_eq_getElem (hw.lt_of_file htarget), Option.map_some, eq_comm,
      Option.map_eq_some_iff] at hlooks
    obtain ⟨other, hother, houtline⟩ := hlooks
    have hrefl : other.Mirrors other := ⟨rfl, fun _ _ => rfl⟩
    exact ⟨other, _, hother, getElem?_eq_getElem (hw.lt_of_file htarget),
      hrefl.of_outline rfl houtline.symm⟩
  · rw [Option.some.inj (hprogram.symm.trans hmade)]

end Made

/-- The workspace is what requests have made of `start`, each on files of its own. -/
structure Grown (start w : Workspace) : Prop extends Indexed w where
  setup : w.setup = start.setup
  made : ∀ id < w.programs.length, ∃ origin,
    (∃ files name, Reads files start origin.file name origin) ∧ Made w id origin

theorem Grown.analyse (hw : Grown start w) (files : FileView) (file : String) :
    Grown start (w.analyse files file).1 := by
  obtain ⟨read, depth, hrun⟩ := exists_run_analyse files w file
  refine ⟨(hrun.indexed_extends hw.toIndexed).1, hrun.setup_eq.trans hw.setup, ?_⟩
  refine (lasting_made files).analyse hw.toIndexed hw.made ?_ file
  exact fun origin name hreads => ⟨files, name, hreads.of_setup hw.setup.symm⟩

theorem grown_serveAll
    (base : String) (config : ParseConfig) (settings : List Setting)
    (requests : List (FileView × Request)) :
    Grown (new base config settings) ((new base config settings).serveAll requests) := by
  refine serveAll_preserves (fun request _ w file hw => hw.analyse request.1 file) ?_
  exact ⟨indexed_new base config settings, rfl, fun id hid => absurd hid (Nat.not_lt_zero id)⟩

theorem Grown.kept (hw : Grown start w) (hprogram : w.programs[id]? = some program) :
    program.Kept := by
  obtain ⟨origin, ⟨_, _, hreads⟩, hmade⟩ := hw.made id (lt_of_getElem? hprogram)
  exact hmade.kept hprogram hreads.kept

/-! ## Outputs -/

/-- The files hold what is printed for each program, under the name of its output.  The name that is
printed for an import leads to the output of the program that the import is bound to. -/
structure Published (files : FileView) (base : String) (w : Workspace) : Prop where
  output : ∀ program ∈ w.programs,
    (files.resolve (Path.join base (Proto.fileName program.file)) >>= files.readName) =
      .ok (Proto.render (program.fileDesc w.programs))
  imports : ∀ program ∈ w.programs, ∀ item ∈ program.schema.imports, ∀ id ∈ item.target,
    ∀ other ∈ w.programs[id]?,
      files.resolve (Path.join base (Proto.fileName item.file.value)) =
        files.resolve (Path.join base (Proto.fileName other.file))

theorem Grown.dialectOf_output
    {base base' : String} {config config' : ParseConfig} {settings settings' : List Setting}
    (hw : Grown (new base config settings) w) {tree : FileTree}
    (hpublished : Published tree base' w) (hprogram : program ∈ w.programs) :
    (new base' config' settings').dialectOf (Proto.fileName program.file) = .ok .protobuf := by
  obtain ⟨id, hid⟩ := mem_iff_getElem?.1 hprogram
  obtain ⟨origin, ⟨files, name, -, dialect, -, -, hdialect, -⟩, hmade⟩ :=
    hw.made id (lt_of_getElem? hid)
  obtain ⟨references, services, messages, rfl, -, -⟩ := hmade.program_eq hid
  obtain ⟨output, hresolve, htext⟩ := bind_eq_ok_iff.1 (hpublished.output _ hprogram)
  rw [FileTree.resolve_view] at hresolve
  exact dialectOf_fileName hdialect hresolve htext

section Output

variable (hw : Grown start w) {id : ProgramId} {program : Program}
  (hprogram : w.programs[id]? = some program) {start' : Workspace} {name : FileName}
  (hdialect : start'.dialectOf (Proto.fileName program.file) = .ok .protobuf)
  (htext : files.readName name = .ok (Proto.render (program.fileDesc w.programs)))
  (hprintable : program.Printable w.programs)

include hw hprogram hprintable

theorem Grown.exists_restated (config : ParseConfig) :
    ∃ read, Dialect.protobuf.parse config (Proto.render (program.fileDesc w.programs)) = .ok read ∧
      OptionDecl.Distinct read.options ∧
      ∀ options, program.schema.Restates { read with options } := by
  obtain ⟨read, hparse, hbare⟩ := (hw.kept hprogram).exists_parse hprintable config
  exact ⟨read, hparse, Schema.distinct_options_of_bare hbare, Schema.Restates.of_bare hbare⟩

include hdialect htext

/-- What is read from an output retells the program, and shows that its imports have different
names. -/
theorem Grown.retells_of_reads
    {copy : Program} (hreads : Reads files start' (Proto.fileName program.file) name copy) :
    program.Retells copy ∧
      (program.schema.imports.map fun item => Proto.fileName item.file.value).Nodup := by
  obtain ⟨read, hparse, -, hrestates⟩ := hw.exists_restated hprogram hprintable start'.config
  have hread := hreads
  obtain ⟨-, _, _, _, hdialect', htext', hparse', himports, hchecked⟩ := hread
  cases hdialect.symm.trans hdialect'
  cases htext.symm.trans htext'
  cases hparse.symm.trans hparse'
  have hcopy : program.schema.Restates copy.schema := by
    rw [checkDefinitions_eq_none hchecked]
    exact hrestates _
  obtain ⟨origin, ⟨_, _, horigin⟩, hmade⟩ := hw.made id (lt_of_getElem? hprogram)
  have horigin' := hcopy.of_written (hmade.written_eq hprogram).symm
  have hmirrors : origin.Mirrors copy := Program.mirrors_of_tabulated horigin.distinct_tabulated.2
    hreads.distinct_tabulated.2 horigin'.package horigin'.typeName?_eq
  exact ⟨⟨hcopy, hmirrors.of_outline (hmade.outline_eq hprogram) rfl, hreads.fresh,
    hreads.references_eq_none⟩, (hrestates read.options).checkImports_eq_ok_iff.1 himports⟩

theorem Grown.exists_reads
    (hresolve : files.resolve (Path.join start'.base (Proto.fileName program.file)) = .ok name)
    (himports : (program.schema.imports.map fun item => Proto.fileName item.file.value).Nodup) :
    ∃ copy, Reads files start' (Proto.fileName program.file) name copy := by
  obtain ⟨read, hparse, hoptions, hrestates⟩ :=
    hw.exists_restated hprogram hprintable start'.config
  obtain ⟨origin, ⟨_, _, horigin⟩, hmade⟩ := hw.made id (lt_of_getElem? hprogram)
  have hdistinct := ((hrestates _).of_written (hmade.written_eq hprogram).symm).distinct
    horigin.distinct_tabulated.1 ((Setting.distinct_applyAll_iff start'.settings).2 hoptions)
    start'.config.useMethodId
  obtain ⟨copy, hchecked⟩ := Program.exists_checkDefinitions_of_distinct start'.config hdistinct
    (Proto.fileName program.file)
  exact ⟨copy, hresolve, .protobuf, _, read, hdialect, htext, hparse,
    (hrestates read.options).checkImports_eq_ok_iff.2 himports, hchecked⟩

end Output

/-- No two programs are printed alike. -/
theorem Grown.eq_of_render_eq
    (hw : Grown start w) {id' : ProgramId} (hprogram : w.programs[id]? = some program)
    (hprogram' : w.programs[id']? = some program') (hprintable : program.Printable w.programs)
    (hprintable' : program'.Printable w.programs)
    (h : Proto.render (program.fileDesc w.programs) = Proto.render (program'.fileDesc w.programs)) :
    id = id' := by
  have hfile : ∀ {id : ProgramId} {program : Program}, w.programs[id]? = some program →
      (program.fileDesc w.programs).file = program.file := by
    intro id program hprogram
    obtain ⟨old, arena, hdesc, hold, -⟩ := (hw.kept hprogram).exists_describe w.programs
    rw [hdesc]
    exact hold
  have hsame := Proto.file_eq_of_render_eq (hfile hprogram ▸ hprintable.file)
    (hfile hprogram' ▸ hprintable'.file) h
  rw [hfile hprogram, hfile hprogram'] at hsame
  have hid := hw.file_of_program hprogram
  rw [hsame, hw.file_of_program hprogram'] at hid
  exact (Option.some.inj hid).symm

/-! ## Editions -/

/-- Files hold a copy of each program of the workspace: `copy id` is read from the file `name id`,
and retells the program.  The names that are printed for imports lead to the copies. -/
structure Edition (files : FileView) (start w : Workspace) (copy : ProgramId → Program)
    (name : ProgramId → FileName) : Prop where
  retells : ∀ {id : ProgramId} {program : Program}, w.programs[id]? = some program →
    program.Retells (copy id)
  reads : ∀ {id : ProgramId} {program : Program}, w.programs[id]? = some program →
    Reads files start (Proto.fileName program.file) (name id) (copy id)
  apart : Set.InjOn name {id | id < w.programs.length}
  imports : ∀ {id : ProgramId} {program : Program}, w.programs[id]? = some program →
    ∀ item ∈ program.schema.imports, ∃ target < w.programs.length, item.target = some target ∧
      files.resolve (Path.join start.base (Proto.fileName item.file.value)) = .ok (name target)

theorem Grown.exists_edition
    (hw : Grown start w) {start' : Workspace}
    (hdialect : ∀ program ∈ w.programs,
      start'.dialectOf (Proto.fileName program.file) = .ok .protobuf)
    (hpublished : Published files start'.base w)
    (hprintable : ∀ program ∈ w.programs, program.Printable w.programs)
    (hreads : ∀ program ∈ w.programs,
      ∃ name copy, Reads files start' (Proto.fileName program.file) name copy) :
    ∃ copy name, Edition files start' w copy name := by
  have hall : ∀ id : ProgramId, ∃ copy name, ∀ program, w.programs[id]? = some program →
      Reads files start' (Proto.fileName program.file) name copy ∧
      files.readName name = .ok (Proto.render (program.fileDesc w.programs)) := by
    intro id
    cases hprogram : w.programs[id]? with
    | none => exact ⟨Program.ofSchema "" (.ofDeclarations ⟨"", default⟩ []), [], nofun⟩
    | some program =>
      have hmem := mem_of_getElem? hprogram
      obtain ⟨name, hresolve, htext⟩ := bind_eq_ok_iff.1 (hpublished.output program hmem)
      obtain ⟨name', copy, hcopy⟩ := hreads program hmem
      cases hresolve.symm.trans hcopy.1
      refine ⟨copy, name, fun other hother => ?_⟩
      cases hother
      exact ⟨hcopy, htext⟩
  choose copy name hall using hall
  refine ⟨copy, name, ?_, ?_, ?_, ?_⟩
  · intro id program hprogram
    have hmem := mem_of_getElem? hprogram
    obtain ⟨hcopy, htext⟩ := hall id program hprogram
    exact (hw.retells_of_reads hprogram (hdialect program hmem) htext (hprintable program hmem)
      hcopy).1
  · exact fun {id program} hprogram => (hall id program hprogram).1
  · intro id hid id' hid' hname
    have htext := (hall id _ (getElem?_eq_getElem hid)).2
    have htext' := (hall id' _ (getElem?_eq_getElem hid')).2
    rw [hname] at htext
    exact hw.eq_of_render_eq (getElem?_eq_getElem hid) (getElem?_eq_getElem hid')
      (hprintable _ (getElem_mem hid)) (hprintable _ (getElem_mem hid'))
      (Except.ok.inj (htext.symm.trans htext'))
  · intro id program hprogram item hitem
    obtain ⟨origin, -, hmade⟩ := hw.made id (lt_of_getElem? hprogram)
    obtain ⟨target, hlt, htarget⟩ := hmade.exists_target hprogram hw.toIndexed hitem
    have hother := getElem?_eq_getElem hlt
    refine ⟨target, hlt, htarget, ?_⟩
    rw [hpublished.imports program (mem_of_getElem? hprogram) item hitem target htarget _
      hother]
    exact (hall target _ hother).1.1

namespace Edition

variable {copy : ProgramId → Program} {name : ProgramId → FileName} {id : ProgramId}
  {program : Program} (h : Edition files start w copy name)

include h

theorem lt_of_mem_importTargets (hprogram : w.programs[id]? = some program) {i : ProgramId}
    (hi : i ∈ program.unnamed.importTargets) : i < w.programs.length := by
  obtain ⟨item, hitem, htarget⟩ := mem_filterMap.1 hi
  obtain ⟨item, hmem, rfl⟩ := mem_map.1 hitem
  obtain ⟨target, hlt, hsome, -⟩ := h.imports hprogram item hmem
  cases hsome.symm.trans htarget
  exact hlt

theorem exists_linkImports (hprogram : w.programs[id]? = some program) :
    ∃ linked, program.unnamed.linkImports w.programs = .ok linked := by
  refine Program.exists_linkImports_unnamed fun item hitem => ?_
  obtain ⟨target, hlt, htarget, -⟩ := h.imports hprogram item hitem
  exact Option.isSome_iff_exists.2 ⟨_, Arena.imported?_eq_some_iff.2
    ⟨htarget, getElem?_eq_getElem hlt⟩⟩

/-- The copy of a program is bound like the program without local names, if its imports are bound to
the copies of the imports. -/
theorem bindReferences {ρ : ProgramId → ProgramId} (hρ : Function.Injective ρ)
    (hprogram : w.programs[id]? = some program)
    (hcustom : ∀ m ∈ program.schema.messages, m.Each TypeName.Custom)
    (file : String) {target : String → Option ProgramId}
    (htarget : ∀ item ∈ program.schema.imports,
      target (Proto.fileName item.file.value) = item.target.map ρ)
    {linking binding : Arena}
    (hlinking : ∀ i ∈ program.unnamed.importTargets,
      linking[ρ i]?.map Program.outline = some (copy i).outline)
    (hbinding : ∀ i ∈ program.unnamed.importTargets,
      binding[ρ i]?.map Program.outline = some (copy i).outline)
    {linked linked' : Program} (hlink : program.unnamed.linkImports w.programs = .ok linked)
    (hlink' : (Program.bindTo target { copy id with file }).linkImports linking = .ok linked') :
    ((linked'.bindReferences binding (ρ id)).2 = none ↔
        (linked.bindReferences w.programs id).2 = none) ∧
      (linked'.bindReferences binding (ρ id)).1.schema.messages.map
          (·.redraw (.references fun id => id)) =
        (linked.bindReferences w.programs id).1.schema.messages.map
          (·.redraw (.references ρ)) := by
  have hcopies := ((h.retells hprogram).of_file file).copies hcustom htarget
  have hmirrors : ∀ arena : Arena, (∀ i ∈ program.unnamed.importTargets,
      arena[ρ i]?.map Program.outline = some (copy i).outline) →
        ∀ i ∈ program.unnamed.importTargets, Arena.Mirrors ρ w.programs arena i := by
    intro arena harena i hi
    have hother := getElem?_eq_getElem (h.lt_of_mem_importTargets hprogram hi)
    obtain ⟨found, hfound, houtline⟩ := Option.map_eq_some_iff.1 (harena i hi)
    exact ⟨_, found, hother, hfound, (h.retells hother).mirrors.of_outline rfl houtline⟩
  have hqualifies : program.unnamed.Qualifies w.programs := by
    refine Program.qualifies_of_localName (fun item hitem => ?_) w.programs
    obtain ⟨item, -, rfl⟩ := mem_map.1 hitem
    rfl
  have hservices : linked'.schema.services = [] := by
    obtain ⟨table, -, rfl⟩ := Program.linkImports_eq_ok_iff.1 hlink'
    exact (h.retells hprogram).restates.services
  obtain ⟨hmessages, hfault⟩ := Program.bindReferences_of_services
    (Program.services_of_linkImports hlink) w.programs id
  obtain ⟨hmessages', hfault'⟩ :=
    Program.bindReferences_of_services hservices binding (ρ id)
  rw [hmessages, hmessages', hfault, hfault']
  exact hcopies.bindAll hρ hqualifies (hmirrors linking hlinking) (hmirrors binding hbinding) hlink
    hlink'

theorem exists_import
    (hprogram : w.programs[id]? = some program) {item' : Import}
    (hitem' : item' ∈ (copy id).schema.imports) :
    ∃ target < w.programs.length, item'.localName = none ∧
      files.resolve (Path.join start.base item'.file.value) = .ok (name target) := by
  obtain ⟨item, hitem, hlocal, hfile⟩ :=
    exists_of_forall₂ (h.retells hprogram).restates.forall₂_imports item' hitem'
  obtain ⟨target, hlt, -, hresolve⟩ := h.imports hprogram item hitem
  rw [← hfile] at hresolve
  exact ⟨target, hlt, hlocal, hresolve⟩

/-! ## Copies are analysed -/

/-- The number of the program whose copy is in a file. -/
noncomputable def place (name : ProgramId → FileName) (n : Nat) : FileName → ProgramId :=
  Function.invFunOn name {id | id < n}

/-- The copies, each under the number of its program. -/
noncomputable def arena (files : FileView) (start w : Workspace) (copy : ProgramId → Program)
    (name : ProgramId → FileName) : Arena :=
  (List.range w.programs.length).map fun id =>
    (copy id).bindTo (placeOf files start (place name w.programs.length))

theorem place_name (hid : id < w.programs.length) :
    place name w.programs.length (name id) = id :=
  h.apart.leftInvOn_invFunOn hid

theorem placeOf_place
    (hid : id < w.programs.length)
    (hresolve : files.resolve (Path.join start.base item) = .ok (name id)) :
    placeOf files start (place name w.programs.length) item = some id := by
  rw [placeOf, hresolve]
  exact congrArg some (h.place_name hid)

omit h in
theorem getElem?_arena
    (files : FileView) (start : Workspace) (copy : ProgramId → Program)
    (name : ProgramId → FileName) (hid : id < w.programs.length) :
    (arena files start w copy name)[id]? =
      some ((copy id).bindTo (placeOf files start (place name w.programs.length))) := by
  simp [arena, hid]

theorem links
    (hprogram : w.programs[id]? = some program) (hportable : program.Portable w.programs id)
    (file : String) :
    (Program.bindTo (placeOf files start (place name w.programs.length))
      { copy id with file }).Links (arena files start w copy name) id := by
  have houtline : ∀ i < w.programs.length,
      (arena files start w copy name)[i]?.map Program.outline = some (copy i).outline := by
    intro i hi
    rw [getElem?_arena files start copy name hi]
    rfl
  have hlinkable : ∀ item ∈ (Program.bindTo (placeOf files start (place name w.programs.length))
      { copy id with file }).schema.imports, item.localName = none ∧
        ((arena files start w copy name).imported? item).isSome := by
    intro item hitem
    obtain ⟨item', hitem', rfl⟩ := mem_map.1 hitem
    obtain ⟨target, hlt, hlocal, hresolve⟩ := h.exists_import hprogram hitem'
    exact ⟨hlocal, Option.isSome_iff_exists.2 ⟨_, Arena.imported?_eq_some_iff.2
      ⟨h.placeOf_place hlt hresolve, getElem?_arena files start copy name hlt⟩⟩⟩
  obtain ⟨linked, hlink⟩ := Program.exists_linkImports_eq_ok hlinkable
  have htarget : ∀ item ∈ program.schema.imports,
      placeOf files start (place name w.programs.length) (Proto.fileName item.file.value) =
        item.target.map fun id => id := by
    intro item hitem
    obtain ⟨target, hlt, htarget, hresolve⟩ := h.imports hprogram item hitem
    rw [h.placeOf_place hlt hresolve, htarget, Option.map_some]
  -- the program itself is in the arena with its references while its type names are bound
  have hset : ∀ i < w.programs.length, ((arena files start w copy name).set id linked)[i]?.map
      Program.outline = some (copy i).outline := by
    intro i hi
    by_cases heq : id = i
    · subst heq
      have hlength : id < (arena files start w copy name).length := by simpa [arena] using hi
      obtain ⟨table, -, rfl⟩ := Program.linkImports_eq_ok_iff.1 hlink
      rw [getElem?_set_self hlength]
      rfl
    · rw [getElem?_set_ne heq]
      exact houtline i hi
  obtain ⟨original, horiginal, hfault, -⟩ := hportable.unaliased
  refine ⟨linked, hlink, ?_⟩
  exact (h.bindReferences Function.injective_id hprogram hportable.custom file htarget
    (fun i hi => houtline i (h.lt_of_mem_importTargets hprogram hi))
    (fun i hi => hset i (h.lt_of_mem_importTargets hprogram hi)) horiginal hlink).1.2 hfault

section Analysed

variable (hstart : Uniform files start)

include hstart

theorem reads_of_resolve
    (hid : id < w.programs.length)
    (hresolve : files.resolve (Path.join start.base item) = .ok (name id)) :
    Reads files start item (name id) { copy id with file := item } :=
  hstart (h.reads (getElem?_eq_getElem hid)) hresolve

theorem resolve_of_inClosure
    (hroot : ∃ id < w.programs.length, files.resolve (Path.join start.base root) = .ok (name id))
    (hitem : InClosure files start root item) :
    ∃ id < w.programs.length, files.resolve (Path.join start.base item) = .ok (name id) := by
  induction hitem with
  | refl => exact hroot
  | @tail importer item _ himport ih =>
    obtain ⟨id, hid, hresolve⟩ := ih
    obtain ⟨name', program, hreads, entry, hentry, rfl⟩ := himport
    obtain ⟨-, rfl⟩ := (h.reads_of_resolve hstart hid hresolve).unique hreads
    obtain ⟨target, hlt, -, hresolve'⟩ :=
      h.exists_import (getElem?_eq_getElem hid) hentry
    exact ⟨target, hlt, hresolve'⟩

theorem layout
    (hroot : ∃ id < w.programs.length, files.resolve (Path.join start.base root) = .ok (name id)) :
    Layout files start root (arena files start w copy name) (place name w.programs.length) := by
  have hname : ∀ found ∈ closurePaths files start root,
      ∃ id < w.programs.length, found = name id := by
    rintro found ⟨item, hitem, hfound⟩
    obtain ⟨id, hid, hresolve⟩ := h.resolve_of_inClosure hstart hroot hitem
    exact ⟨id, hid, Except.ok.inj (hfound.symm.trans hresolve)⟩
  constructor
  · intro found hfound found' hfound' hplace
    obtain ⟨id, hid, rfl⟩ := hname found hfound
    obtain ⟨id', hid', rfl⟩ := hname found' hfound'
    rw [h.place_name hid, h.place_name hid'] at hplace
    rw [hplace]
  · intro found hfound
    obtain ⟨id, hid, rfl⟩ := hname found hfound
    refine ⟨_, copy id, h.reads (getElem?_eq_getElem hid), ?_⟩
    rw [h.place_name hid]
    exact getElem?_arena files start copy name hid

variable (hportable : ∀ {id : ProgramId} {program : Program}, w.programs[id]? = some program →
  program.Portable w.programs id)

include hportable

/-- Whatever was analysed of the files, a name that leads to a copy can be analysed. -/
theorem isOk_analyse
    (hw' : Sourced files start w')
    (hroot : ∃ id < w.programs.length, files.resolve (Path.join start.base root) = .ok (name id)) :
    (w'.analyse files root).2.isOk := by
  refine (hw'.isOk_iff_passes hstart (h.layout hstart hroot)).2 fun item hitem => ?_
  obtain ⟨id, hid, hresolve⟩ := h.resolve_of_inClosure hstart hroot hitem
  have hprogram := getElem?_eq_getElem hid
  refine ⟨name id, _, h.reads_of_resolve hstart hid hresolve, ?_⟩
  rw [h.place_name hid]
  exact h.links hprogram (hportable hprogram) item

theorem exists_analyseAll (hw' : Traced files start w') :
    ∃ w₁ ids, w'.analyseAll files (w.programs.map fun program => Proto.fileName program.file) =
      (w₁, .ok ids) := by
  refine exists_analyseAll_eq_ok (P := Traced files start) (fun _ file htraced =>
    htraced.analyse file) (fun w₂ hw₂ root hroot => ?_) hw'
  obtain ⟨program, hprogram, rfl⟩ := mem_map.1 hroot
  obtain ⟨id, hid⟩ := mem_iff_getElem?.1 hprogram
  exact h.isOk_analyse hstart hportable hw₂.toSourced
    ⟨id, lt_of_getElem? hid, (h.reads hid).1⟩

end Analysed

/-! ## Copies are bound -/

/-- In a workspace that knows the copies, each has a number of its own. -/
theorem exists_renumbering
    (hw' : Traced files start w')
    (hknown : ∀ program ∈ w.programs, (w'.get? (Proto.fileName program.file)).isSome) :
    ∃ ρ : ProgramId → ProgramId, Function.Injective ρ ∧
      ∀ {id : ProgramId} {program : Program}, w.programs[id]? = some program →
        w'.get? (Proto.fileName program.file) = some (ρ id) := by
  have hnew : ∀ id < w.programs.length, ∃ id' < w'.programs.length, ∃ program,
      w.programs[id]? = some program ∧ w'.get? (Proto.fileName program.file) = some id' := by
    intro id hid
    obtain ⟨id', hid'⟩ := Option.isSome_iff_exists.1 (hknown _ (getElem_mem hid))
    exact ⟨id', hw'.faithful.lt_of_file hid', _, getElem?_eq_getElem hid, hid'⟩
  have hapart : ∀ i j id' : ProgramId, (∃ program : Program, w.programs[i]? = some program ∧
      w'.get? (Proto.fileName program.file) = some id') →
      (∃ program : Program, w.programs[j]? = some program ∧
        w'.get? (Proto.fileName program.file) = some id') → i = j := by
    rintro i j id' ⟨program, hi, hfirst⟩ ⟨other, hj, hsecond⟩
    obtain ⟨found, hresolve, hfound⟩ := hw'.path_of_known hfirst
    obtain ⟨found', hresolve', hfound'⟩ := hw'.path_of_known hsecond
    obtain rfl := hw'.faithful.path_unique hfound hfound'
    cases hresolve.symm.trans (h.reads hi).1
    exact h.apart (lt_of_getElem? hi) (lt_of_getElem? hj)
      (Except.ok.inj (hresolve'.symm.trans (h.reads hj).1))
  obtain ⟨ρ, hρ, hnumber, -⟩ := exists_injective_extension hnew hapart
  refine ⟨ρ, hρ, fun {id program} hprogram => ?_⟩
  obtain ⟨other, hother, hget⟩ := hnumber id (lt_of_getElem? hprogram)
  cases hprogram.symm.trans hother
  exact hget

section Renumbering

variable (hstart : Uniform files start) (hw' : Traced files start w') {ρ : ProgramId → ProgramId}
  (hknown : ∀ {id : ProgramId} {program : Program}, w.programs[id]? = some program →
    w'.get? (Proto.fileName program.file) = some (ρ id))

include hw' hknown

theorem byPath_name (hid : id < w.programs.length) : w'.byPath.lookup (name id) = some (ρ id) := by
  have hprogram := getElem?_eq_getElem hid
  obtain ⟨found, hresolve, hfound⟩ := hw'.path_of_known (hknown hprogram)
  cases hresolve.symm.trans (h.reads hprogram).1
  exact hfound

theorem get?_eq_of_resolve
    (hid : id < w.programs.length) (hitem : (w'.get? item).isSome)
    (hresolve : files.resolve (Path.join start.base item) = .ok (name id)) :
    w'.get? item = some (ρ id) := by
  obtain ⟨id', hid'⟩ := Option.isSome_iff_exists.1 hitem
  obtain ⟨found, hresolve', hfound⟩ := hw'.path_of_known hid'
  cases hresolve'.symm.trans hresolve
  rw [hid', ← hfound, h.byPath_name hw' hknown hid]

include hstart

theorem outline_eq (hid : id < w.programs.length) :
    w'.programs[ρ id]?.map Program.outline = some (copy id).outline := by
  obtain ⟨program, found, hprogram, -, hreads, houtline⟩ :=
    hw'.origin_of_path (h.byPath_name hw' hknown hid)
  have hcopy := hstart.eq_of_reads (h.reads (getElem?_eq_getElem hid)) hreads
  rw [hprogram, Option.map_some, houtline, hcopy]
  rfl

theorem exists_made (hid : id < w.programs.length) :
    ∃ file, Made w' (ρ id) { copy id with file } := by
  obtain ⟨found, hreads, hmade⟩ := hw'.made_of_path (h.byPath_name hw' hknown hid)
  rw [hstart.eq_of_reads (h.reads (getElem?_eq_getElem hid)) hreads] at hmade
  exact ⟨_, hmade⟩

/-- What comes of a copy says what the program says, as far as that is printed. -/
theorem restated
    (hprogram : w.programs[id]? = some program) (hprogram' : w'.programs[ρ id]? = some program') :
    program'.schema.enums.map (·.bare) = program.schema.enums.map (·.reread) ∧
      program'.schema.messages.map (·.redraw .bare) =
        program.schema.messages.map (·.redraw .reread) := by
  obtain ⟨file, hmade⟩ :=
    h.exists_made hstart hw' hknown (lt_of_getElem? hprogram)
  have hrestates := (h.retells hprogram).restates
  obtain ⟨references, services, messages, rfl, hmessages, -⟩ := hmade.program_eq hprogram'
  refine ⟨hrestates.enums, ?_⟩
  rw [← hrestates.messages]
  exact Message.map_redraw_of_unbind Field.bare_unbind hmessages

/-- What comes of the copy of a program is bound like the program without local names. -/
theorem exists_bound
    (hρ : Function.Injective ρ) (hprogram : w.programs[id]? = some program)
    (hcustom : ∀ m ∈ program.schema.messages, m.Each TypeName.Custom)
    (hprogram' : w'.programs[ρ id]? = some program') :
    ∃ linked, program.unnamed.linkImports w.programs = .ok linked ∧
      (linked.bindReferences w.programs id).2 = none ∧
      program'.schema.messages.map (·.redraw (.references fun id => id)) =
        (linked.bindReferences w.programs id).1.schema.messages.map
          (·.redraw (.references ρ)) := by
  obtain ⟨file, hmade⟩ :=
    h.exists_made hstart hw' hknown (lt_of_getElem? hprogram)
  obtain ⟨arena, linked', halike, hlink', hfault', hmade'⟩ := hmade.linked
  have himports : ∀ item ∈ program.schema.imports, ∃ target < w.programs.length,
      item.target = some target ∧ w'.get? (Proto.fileName item.file.value) = some (ρ target) ∧
      ρ target ∈ (Program.bindTo w'.get? { copy id with file }).importTargets := by
    intro item hitem
    obtain ⟨item', hitem', -, hfile⟩ :=
      exists_of_forall₂ (h.retells hprogram).restates.forall₂_imports.flip item hitem
    obtain ⟨target, hlt, htarget, hresolve⟩ := h.imports hprogram item hitem
    have hget := h.get?_eq_of_resolve hw' hknown hlt (hfile ▸ hmade.known item' hitem') hresolve
    exact ⟨target, hlt, htarget, hget,
      mem_importTargets_bindTo_iff.2 ⟨item', hitem', hfile ▸ hget⟩⟩
  have htarget : ∀ item ∈ program.schema.imports,
      w'.get? (Proto.fileName item.file.value) = item.target.map ρ := by
    intro item hitem
    obtain ⟨target, -, htarget, hget, -⟩ := himports item hitem
    rw [hget, htarget, Option.map_some]
  have hlooks : ∀ i ∈ program.unnamed.importTargets,
      arena[ρ i]?.map Program.outline = some (copy i).outline := by
    intro i hi
    obtain ⟨item, hitem, hsome⟩ := mem_filterMap.1 hi
    obtain ⟨item, hmem, rfl⟩ := mem_map.1 hitem
    obtain ⟨target, hlt, htarget, -, himported⟩ := himports item hmem
    cases htarget.symm.trans hsome
    rw [← h.outline_eq hstart hw' hknown hlt]
    exact (halike _ himported).symm
  obtain ⟨linked, hlink⟩ := h.exists_linkImports hprogram
  obtain ⟨hiff, hreferences⟩ :=
    h.bindReferences hρ hprogram hcustom file htarget hlooks hlooks hlink hlink'
  cases hprogram'.symm.trans hmade'
  exact ⟨linked, hlink, hiff.1 hfault', hreferences⟩

end Renumbering

end Edition

end Workspace

end Idl

import Idl.Plugin
import Idl.Proofs.Descriptor.Traversal
import Idl.Proofs.Workspace.Memo
import Mathlib.Data.List.Nodup

/-!
# Descriptors of import closures

Whatever was done with a workspace, the descriptors of a program and of all that it imports come in
the order of the recursive traversal, one for each program, under the name that its file was first
asked for.  An import keeps the name that is written in it, which may be another.
-/

namespace Idl.Workspace

variable {w : Workspace}

/-! ## Workspaces after any actions -/

theorem Steady.register (hw : Steady w) (suffix : String) (dialect : Dialect) :
    Steady (w.register suffix dialect) where
  ids := hw.ids
  paths_nodup := hw.paths_nodup
  files_nodup := hw.files_nodup
  lt_of_file := hw.lt_of_file
  file_of_program := hw.file_of_program
  done := by
    intro id hid
    obtain ⟨origin, -, hdone⟩ := hw.done id hid
    exact ⟨origin, trivial, hdone.unlinked, hdone.known, hdone.program, hdone.links⟩

theorem steady_clear_actAll
    (base : String) (config : ParseConfig) (settings : List Setting)
    (actions : List (FileView × Action)) :
    Steady ((new base config settings).actAll actions).clear :=
  clear_actAll_preserves (fun action _ _ file hw => Steady.analyse hw action.1 file)
    (fun _ suffix dialect _ _ hw => hw.register suffix dialect) (settled_new _ base config settings)

theorem Consistent.of_clear (hw : Consistent w.clear) : Consistent w := by
  have hprogram : ∀ {id : ProgramId} {program : Program}, w.program? id = some program →
      w.clear.program? id = some program.clear := by
    intro id program h
    rw [program?, clear, Arena.getElem?_clear]
    exact congrArg (Option.map _) h
  have hlength : w.clear.programs.length = w.programs.length := w.programs.length_clear
  refine ⟨fun h => hlength ▸ hw.path_lt h, fun id hid => hw.path_unique id (hlength ▸ hid),
    fun h => hlength ▸ hw.file_lt h, ?_, ?_, ?_, ?_⟩
  · intro id program h
    have hfile := hw.file_of_program (hprogram h)
    exact hfile
  · have hfiles := hw.files_nodup
    rw [clear, Arena.clear, List.map_map] at hfiles
    exact hfiles
  · intro id program h
    have hreferences := hw.references (hprogram h)
    exact hreferences
  · intro id program h item hitem
    obtain ⟨target, htarget, hbound⟩ := hw.imports (hprogram h) item hitem
    exact ⟨target, hlength ▸ htarget, hbound⟩

theorem consistent_actAll
    (base : String) (config : ParseConfig) (settings : List Setting)
    (actions : List (FileView × Action)) :
    Consistent ((new base config settings).actAll actions) :=
  (steady_clear_actAll base config settings actions).consistent.of_clear

theorem Consistent.exists_of_imports
    (hw : Consistent w) (i j : ProgramId) (h : w.programs.Imports i j) :
    ∃ program, w.programs[j]? = some program := by
  rw [Arena.Imports, Arena.targets] at h
  cases hprogram : w.programs[i]? with
  | none =>
    rw [hprogram] at h
    cases h
  | some program =>
    rw [hprogram] at h
    obtain ⟨item, hitem, htarget⟩ := List.mem_filterMap.1 h
    obtain ⟨target, hlt, hbound, -⟩ := hw.imports hprogram item hitem
    cases hbound.symm.trans htarget
    exact ⟨_, List.getElem?_eq_getElem hlt⟩

/-! ## The order of descriptors -/

theorem Consistent.importClosure_eq (hw : Consistent w) (id : ProgramId) :
    w.programs.importClosure id = w.programs.preorder [] [id] :=
  Arena.closureFrom_eq_preorder (by simp [Arena.Matches]) hw.files_nodup [id]

end Idl.Workspace

namespace Idl.Arena

variable {arena : Arena} {id : ProgramId}

/-- The entry for a program, under its file. -/
def Describes (arena : Arena) (i : ProgramId) (entry : String × FileDesc) : Prop :=
  ∃ program, arena[i]? = some program ∧ entry = (program.file, program.fileDesc arena)

theorem mem_closureDescs_iff {entry : String × FileDesc} :
    entry ∈ arena.closureDescs id ↔ ∃ i ∈ arena.importClosure id, arena.Describes i entry := by
  simp only [closureDescs, List.mem_filterMap, Option.map_eq_some_iff, Describes, @eq_comm _ entry]

theorem forall₂_closureDescs
    (h : ∀ i ∈ arena.importClosure id, ∃ program, arena[i]? = some program) :
    List.Forall₂ arena.Describes (arena.importClosure id) (arena.closureDescs id) := by
  rw [closureDescs]
  generalize arena.importClosure id = ids at h ⊢
  induction ids with
  | nil => exact .nil
  | cons i ids ih =>
    obtain ⟨program, hprogram⟩ := h i List.mem_cons_self
    rw [List.filterMap_cons, hprogram]
    exact .cons ⟨program, hprogram, rfl⟩ (ih fun j hj => h j (List.mem_cons_of_mem _ hj))

theorem nodup_keys_closureDescs
    (hfiles : (arena.map (·.file)).Nodup) (hids : (arena.importClosure id).Nodup) :
    ((arena.closureDescs id).map (·.1)).Nodup := by
  rw [closureDescs, List.map_filterMap]
  refine hids.filterMap ?_
  intro i j file hi hj
  simp only [Option.map_map, Option.mem_def, Option.map_eq_some_iff, Function.comp_apply] at hi hj
  obtain ⟨program, hprogram, rfl⟩ := hi
  obtain ⟨other, hother, hsame⟩ := hj
  exact (eq_of_file_eq hfiles hprogram hother hsame).symm

end Idl.Arena

namespace Idl.Workspace

/-- Whatever was done with a workspace, the loop that collects a program and its imports ends, and
the descriptors come in the order of the recursive traversal: the program first, and one entry,
under its file, for each program that bound imports lead to. -/
theorem closureDescs_in_preorder
    (base : String) (config : ParseConfig) (settings : List Setting)
    (actions : List (FileView × Action)) (id : ProgramId) (program : Program)
    (hprogram : ((new base config settings).actAll actions).program? id = some program) :
    let arena := ((new base config settings).actAll actions).programs
    let order := arena.preorder [] [id]
    (∀ rounds found, Arena.Walk arena [] [id] rounds found ↔
      found = order ∧ rounds = 1 + arena.importCount order) ∧
    List.Forall₂ arena.Describes order (arena.closureDescs id) ∧
    ((arena.closureDescs id).map (·.1)).Nodup ∧
    order.head? = some id ∧ order.Nodup ∧
    ∀ i, i ∈ order ↔ Relation.ReflTransGen arena.Imports id i := by
  intro arena order
  have hw := consistent_actAll base config settings actions
  have horder : arena.importClosure id = order := hw.importClosure_eq id
  have hfound : ∀ i ∈ arena.importClosure id, ∃ program, arena[i]? = some program := by
    rw [horder]
    exact fun i hi => (Arena.exists_of_mem_preorder [id] hi).2
  have hnodup : order.Nodup := Arena.nodup_preorder [] [id]
  refine ⟨?_, horder ▸ Arena.forall₂_closureDescs hfound,
    Arena.nodup_keys_closureDescs hw.files_nodup (horder ▸ hnodup), ?_, hnodup, ?_⟩
  · intro rounds found
    rw [Arena.walk_iff]
    change found = arena.importClosure id ∧ _ ↔ _
    rw [horder]
    constructor
    · rintro ⟨rfl, rfl⟩
      exact ⟨rfl, rfl⟩
    · rintro ⟨rfl, rfl⟩
      exact ⟨rfl, rfl⟩
  · have hlt : id < arena.length := lt_of_getElem? hprogram
    exact congrArg List.head? (Arena.preorder_new hlt List.not_mem_nil [])
  · intro i
    exact Arena.mem_preorder_iff hw.exists_of_imports hprogram

/-- A file that imports two others, which both import a fourth, which imports the first. -/
def diamond : FileTree where
  here := []
  nodes :=
    [(["a.wproto"], .file (Text.encodeUtf8
        "package a\nimport \"b.wproto\"\nimport \"c.wproto\"\n")),
      (["b.wproto"], .file (Text.encodeUtf8 "package b\nimport \"d.wproto\"\n")),
      (["c.wproto"], .file (Text.encodeUtf8 "package c\nimport \"d.wproto\"\n")),
      (["d.wproto"], .file (Text.encodeUtf8 "package d\nimport \"a.wproto\"\n"))]

/-- The workspace after the analysis of the third file, and a question for the fourth. -/
def afterDiamond : Workspace :=
  (new "" ⟨false⟩ []).actAll [(diamond, .serve (.file "c.wproto")), (diamond, .describe 1)]

theorem closureDescs_in_preorder_diamond :
    (∃ program, afterDiamond.program? 2 = some program) ∧
      afterDiamond.programs.map (·.file) = ["c.wproto", "d.wproto", "a.wproto", "b.wproto"] ∧
      List.Forall₂ afterDiamond.programs.Describes [2, 3, 1, 0]
        (afterDiamond.programs.closureDescs 2) := by
  obtain ⟨hfiles, htargets⟩ : afterDiamond.programs.map (·.file) =
        ["c.wproto", "d.wproto", "a.wproto", "b.wproto"] ∧
      (List.range 4).map afterDiamond.programs.targets = [[1], [2], [3, 0], [1]] := by
    decide +kernel
  have hlength : afterDiamond.programs.length = 4 := by
    rw [← List.length_map, hfiles]
    rfl
  have horder : afterDiamond.programs.preorder [] [2] = [2, 3, 1, 0] := by
    simp only [List.range, List.range.loop, List.map_cons, List.map_nil, List.cons.injEq,
      and_true] at htargets
    simp [Arena.preorder_new, Arena.preorder_seen, Arena.preorder_nil, hlength, htargets]
  have hprogram : afterDiamond.program? 2 = some afterDiamond.programs[2] :=
    List.getElem?_eq_getElem (by omega)
  have h := closureDescs_in_preorder "" ⟨false⟩ []
    [(diamond, .serve (.file "c.wproto")), (diamond, .describe 1)] 2 _ hprogram
  exact ⟨⟨_, hprogram⟩, hfiles, horder ▸ h.2.1⟩

/-! ## The request to a plugin -/

/-- Every descriptor that is kept lists the imports of its program. -/
def KeepsImports (w : Workspace) : Prop :=
  ∀ id program, w.program? id = some program → ∀ desc ∈ program.descriptor,
    desc.imports = program.schema.imports.map (·.describe)

theorem KeepsImports.imports_fileDesc
    (hw : KeepsImports w) {id : ProgramId} {program : Program}
    (h : w.program? id = some program) (arena : Arena) :
    (program.fileDesc arena).imports = program.schema.imports.map (·.describe) := by
  rw [Program.fileDesc]
  cases hdesc : program.descriptor with
  | none => rfl
  | some desc => exact hw id program h desc hdesc

theorem KeepsImports.remember (hw : KeepsImports w) (ids : List ProgramId) :
    KeepsImports { w with programs := w.programs.remember ids } := by
  intro id program hprogram desc hdesc
  have hremember := (Arena.getElem?_remember w.programs ids id).symm.trans hprogram
  obtain ⟨old, hold, rfl⟩ := Option.map_eq_some_iff.1 hremember
  split at hdesc
  next =>
    cases hdesc
    split <;> exact hw.imports_fileDesc hold w.programs
  next =>
    split <;> exact hw id old hold desc hdesc

theorem keepsImports_actAll
    (base : String) (config : ParseConfig) (settings : List Setting)
    (actions : List (FileView × Action)) :
    KeepsImports ((new base config settings).actAll actions) := by
  -- analyses leave programs with a descriptor as they are, because the tables are in order
  let P (w : Workspace) : Prop := Steady w.clear ∧ KeepsImports w
  have hP : P ((new base config settings).actAll actions) := by
    refine actAll_preserves ?_ ?_ ?_ ⟨settled_new _ base config settings, ?_⟩
    · rintro ⟨files, -⟩ - w file ⟨hsteady, hkept⟩
      have hanalyse := Steady.analyse hsteady files file
      rw [analyse_clear] at hanalyse
      refine ⟨hanalyse, ?_⟩
      intro id program hprogram desc hdesc
      exact hkept id program (program?_of_kept hsteady.toIndexed.of_clear hprogram hdesc) desc hdesc
    · rintro files suffix dialect - w ⟨hsteady, hkept⟩
      exact ⟨hsteady.register suffix dialect, hkept⟩
    · rintro w ids ⟨hsteady, hkept⟩
      refine ⟨?_, hkept.remember ids⟩
      rw [clear, Arena.clear_remember]
      exact hsteady
    · intro id program hprogram
      simp [new, program?] at hprogram
  exact hP.2

/-- In a request, the descriptor that stands for the imported program is there, under that program's
own file; the name that is written in the import is a key if and only if it is that very file. -/
def Resolves (arena : Arena) (programs : Assoc String FileDesc) (item : Import)
    (written : ImportDesc) : Prop :=
  written.file = item.file.value ∧ ∃ target imported, item.target = some target ∧
    arena[target]? = some imported ∧
    programs.lookup imported.file = some (imported.fileDesc arena) ∧
    ((programs.lookup written.file).isSome ↔ written.file = imported.file)

/-- Whatever was done with a workspace, a request for one of its programs holds the descriptors of
all that is imported: each descriptor in it is that of a program, its imports are those of the
program in order, and each of them is bound to a program whose descriptor is there. -/
theorem request_holds_imported
    (base : String) (config : ParseConfig) (settings : List Setting)
    (actions : List (FileView × Action)) (id : ProgramId) (program : Program)
    (hprogram : ((new base config settings).actAll actions).program? id = some program) :
    let arena := ((new base config settings).actAll actions).programs
    let request := Plugin.request arena id program
    request.files = [program.file] ∧
      ∀ key desc, (key, desc) ∈ request.programs →
        ∃ (i : ProgramId) (importer : Program), arena[i]? = some importer ∧ key = importer.file ∧
          desc = importer.fileDesc arena ∧
          List.Forall₂ (Resolves arena request.programs) importer.schema.imports desc.imports := by
  intro arena request
  refine ⟨rfl, ?_⟩
  have hw := consistent_actAll base config settings actions
  have hkeeps := keepsImports_actAll base config settings actions
  have horder : arena.importClosure id = arena.preorder [] [id] := hw.importClosure_eq id
  have hkeys : (request.programs.map (·.1)).Nodup :=
    Arena.nodup_keys_closureDescs hw.files_nodup (horder ▸ Arena.nodup_preorder [] [id])
  intro key desc hentry
  obtain ⟨i, hi, importer, himporter, hdesc⟩ := Arena.mem_closureDescs_iff.1 hentry
  obtain ⟨rfl, rfl⟩ := Prod.mk.inj hdesc
  refine ⟨i, importer, himporter, rfl, rfl, ?_⟩
  rw [hkeeps.imports_fileDesc himporter arena, List.forall₂_map_right_iff, List.forall₂_same]
  intro item hitem
  obtain ⟨target, hlt, htarget, hname⟩ := hw.imports himporter item hitem
  have himported : arena[target]? = some arena[target] := List.getElem?_eq_getElem hlt
  have hmem : (arena[target].file, arena[target].fileDesc arena) ∈ request.programs := by
    refine Arena.mem_closureDescs_iff.2 ⟨target, ?_, _, himported, rfl⟩
    rw [horder, Arena.mem_preorder_iff hw.exists_of_imports hprogram] at hi ⊢
    refine hi.tail ?_
    rw [Arena.Imports, Arena.targets_eq himporter]
    exact List.mem_filterMap.2 ⟨item, hitem, htarget⟩
  have hlookup := (Assoc.lookup_eq_some_iff_mem hkeys).2 hmem
  refine ⟨rfl, target, arena[target], htarget, himported, hlookup, ?_⟩
  constructor
  · intro hsome
    -- a program under that key goes by that name, and so does the imported one
    obtain ⟨found, hfound⟩ := Option.isSome_iff_exists.1 hsome
    obtain ⟨j, -, other, hother, heq⟩ :=
      Arena.mem_closureDescs_iff.1 ((Assoc.lookup_eq_some_iff_mem hkeys).1 hfound)
    obtain ⟨hfile, -⟩ := Prod.mk.inj heq
    have hget := hw.file_of_program hother
    rw [← hfile] at hget
    cases hget.symm.trans hname
    rw [hfile, Option.some.inj (hother.symm.trans himported)]
  · intro hfile
    rw [hfile, hlookup]
    rfl

/-- A file that imports two others, of which the second imports the first under another spelling. -/
def respelt : FileTree where
  here := []
  nodes :=
    [(["a.wproto"], .file (Text.encodeUtf8
        "package a\nimport \"b.wproto\"\nimport \"c.wproto\"\n")),
      (["b.wproto"], .file (Text.encodeUtf8 "package b\n")),
      (["c.wproto"], .file (Text.encodeUtf8 "package c\nimport \"./b.wproto\"\n"))]

def afterRespelt : Workspace :=
  (new "" ⟨false⟩ []).actAll [(respelt, .serve (.file "a.wproto"))]

theorem programs_afterRespelt :
    afterRespelt.programs.map (fun program =>
      (program.file, program.importTargets, program.schema.imports.map (·.describe.file))) =
      [("a.wproto", [1, 2], ["b.wproto", "c.wproto"]), ("b.wproto", [], []),
        ("c.wproto", [1], ["./b.wproto"])] := by
  decide +kernel

theorem exists_program_afterRespelt :
    ∃ first third : Program, afterRespelt.program? 0 = some first ∧
      ("c.wproto", third.fileDesc afterRespelt.programs) ∈
        (Plugin.request afterRespelt.programs 0 first).programs ∧
      (third.fileDesc afterRespelt.programs).imports.map (·.file) = ["./b.wproto"] := by
  have hw : Consistent afterRespelt := consistent_actAll ..
  have hkeeps : KeepsImports afterRespelt := keepsImports_actAll _ _ _ _
  have hfirst := congrArg (·[0]?) programs_afterRespelt
  have hthird := congrArg (·[2]?) programs_afterRespelt
  simp only [List.getElem?_map, List.getElem?_cons_zero, List.getElem?_cons_succ,
    Option.map_eq_some_iff, Prod.mk.injEq] at hfirst hthird
  obtain ⟨first, hfirst, -, htargets, -⟩ := hfirst
  obtain ⟨third, hthird, hfile, -, himports⟩ := hthird
  refine ⟨first, third, hfirst, ?_, ?_⟩
  · refine Arena.mem_closureDescs_iff.2 ⟨2, ?_, third, hthird, by rw [hfile]⟩
    have himport : afterRespelt.programs.Imports 0 2 := by
      rw [Arena.Imports, Arena.targets_eq hfirst, htargets]
      decide
    rw [hw.importClosure_eq 0, Arena.mem_preorder_iff hw.exists_of_imports hfirst]
    exact .single himport
  · rw [hkeeps.imports_fileDesc hthird, List.map_map]
    exact himports

/-- The names that are written in imports need not be keys of the request: the program may go by
the name under which another file, or a call, has asked for it first. -/
theorem request_not_closed_under_names :
    ¬ ∀ (base : String) (config : ParseConfig) (settings : List Setting)
        (actions : List (FileView × Action)) (id : ProgramId) (program : Program),
      ((new base config settings).actAll actions).program? id = some program →
      let programs :=
        (Plugin.request ((new base config settings).actAll actions).programs id program).programs
      ∀ key desc, (key, desc) ∈ programs → ∀ item ∈ desc.imports,
        (programs.lookup item.file).isSome := by
  intro hclosed
  obtain ⟨first, third, hfirst, hentry, himports⟩ := exists_program_afterRespelt
  obtain ⟨item, hitem, hfile⟩ : ∃ item ∈ (third.fileDesc afterRespelt.programs).imports,
      item.file = "./b.wproto" := by
    rw [← List.mem_map, himports]
    exact List.mem_cons_self
  have hsome := hclosed "" ⟨false⟩ [] [(respelt, .serve (.file "a.wproto"))] 0 first hfirst _ _
    hentry item hitem
  obtain ⟨desc, hdesc⟩ := Option.isSome_iff_exists.1 hsome
  obtain ⟨i, -, program, hprogram, heq⟩ :=
    Arena.mem_closureDescs_iff.1 (Assoc.mem_of_lookup_eq_some hdesc)
  -- no program of the workspace goes by the name in the import
  have hmem := List.mem_map_of_mem (f := fun program =>
    (program.file, program.importTargets, program.schema.imports.map (·.describe.file)))
    (List.mem_of_getElem? hprogram)
  rw [show ((new "" ⟨false⟩ []).actAll [(respelt, .serve (.file "a.wproto"))]).programs =
    afterRespelt.programs from rfl, programs_afterRespelt, ← (Prod.mk.inj heq).1, hfile] at hmem
  simp at hmem

theorem request_holds_imported_respelt :
    ∃ first, afterRespelt.program? 0 = some first ∧
      (∃ desc, ("c.wproto", desc) ∈ (Plugin.request afterRespelt.programs 0 first).programs) ∧
      ∀ key desc, (key, desc) ∈ (Plugin.request afterRespelt.programs 0 first).programs →
        ∃ (i : ProgramId) (importer : Program), afterRespelt.programs[i]? = some importer ∧
          key = importer.file ∧ desc = importer.fileDesc afterRespelt.programs ∧
          List.Forall₂ (Resolves afterRespelt.programs
            (Plugin.request afterRespelt.programs 0 first).programs)
            importer.schema.imports desc.imports := by
  obtain ⟨first, third, hfirst, hentry, -⟩ := exists_program_afterRespelt
  exact ⟨first, hfirst, ⟨_, hentry⟩,
    (request_holds_imported "" ⟨false⟩ [] [(respelt, .serve (.file "a.wproto"))] 0 first
      hfirst).2⟩

end Idl.Workspace

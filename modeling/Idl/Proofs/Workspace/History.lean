import Idl.Proofs.Workspace.Embedding
import Idl.Proofs.Workspace.Memo

/-!
# Descriptors do not depend on history

On files that stay as they are, a file that was analysed has the descriptor that it has in a
workspace where it alone was analysed.  What else was analysed before or after does not matter, nor
what failed, which file of a cycle came first, or when descriptors were asked for: those that are
kept are what would be made anew.  Only the name of the file in the descriptor is the one by which
the file was first asked for.
-/

namespace Idl

open List

variable {actions : List Workspace.Action}

/-- The descriptor without the name of its file. -/
def FileDesc.unnamed (desc : FileDesc) : FileDesc := { desc with file := "" }

theorem Arena.embeds_clear (arena : Arena) : Arena.Embeds (fun id => id) arena arena.clear where
  injective := Function.injective_id
  schema := by
    intro id
    rw [getElem?_clear, Option.map_map]
    exact congrArg (arena[id]?.map ·) (funext fun program => program.schema.renumber_id.symm)

theorem Program.describe_clear (arena : Arena) (program : Program) :
    program.clear.describe arena.clear = program.describe arena :=
  arena.embeds_clear.describe_eq program.schema.renumber_id.symm

namespace Workspace

variable {files : FileView} {start w w' : Workspace} {file : String} {id : ProgramId}

theorem Blank.traced (h : start.Blank) (files : FileView) : Traced files start start :=
  ⟨h.sourced files, by simp [h.programs]⟩

/-! ## A file by itself -/

theorem Sourced.isOk_of_known
    (hw : Sourced files start w) (hw' : Sourced files start w') (hstart : Uniform files start)
    (hknown : (w.get? file).isSome) : (w'.analyse files file).2.isOk := by
  obtain ⟨arena, place, hlayout⟩ := hw.exists_layout hstart hknown
  refine (hw'.isOk_iff_passes hstart hlayout).2 fun item hitem => ?_
  exact hw.passes hstart hlayout hknown hitem

/-- The paths of a workspace in which only one file was analysed are those of its closure, which any
workspace has that knows the file. -/
theorem Sourced.isSome_path_of_alone
    (hw : Sourced files start w) (hblank : start.Blank) (hstart : Uniform files start)
    (hknown : (w.get? file).isSome) (hok : start.analyse files file = (w', .ok id))
    {name : FileName} {i : ProgramId} (hname : w'.byPath.lookup name = some i) :
    (w.byPath.lookup name).isSome := by
  obtain ⟨read, depth, hrun⟩ := exists_run_analyse files start file
  rw [hok] at hrun
  have hread : name ∈ read := by
    have hpaths := hrun.paths_eq rfl
    rw [hblank.byPath, map_nil, nil_append] at hpaths
    rw [← hpaths]
    exact mem_map_of_mem (Assoc.mem_of_lookup_eq_some hname)
  obtain ⟨item, hitem, hresolve⟩ := hrun.read_subset name hread
  obtain ⟨j, hj⟩ := Option.isSome_iff_exists.1 (hw.known_of_inClosure hstart hknown hitem)
  obtain ⟨name', hresolve', hname'⟩ := hw.path_of_known hj
  cases hresolve'.symm.trans hresolve
  rw [hname']
  rfl

/-- What comes of a file alone is embedded in every workspace that knows the file. -/
theorem Traced.exists_embeds_alone
    (hw : Traced files start w) (hblank : start.Blank) (hstart : Uniform files start)
    (hknown : w.get? file = some id) :
    ∃ w₀ id₀ ρ, start.analyse files file = (w₀, .ok id₀) ∧ w₀.get? file = some id₀ ∧
      Traced files start w₀ ∧ Arena.Embeds ρ w₀.programs w.programs ∧ ρ id₀ = id := by
  have hsome : (w.get? file).isSome := Option.isSome_iff_exists.2 ⟨id, hknown⟩
  have hsource := hblank.traced files
  obtain ⟨id₀, hid₀⟩ := isOk_iff_exists.1 (hw.isOk_of_known hsource.toSourced hstart hsome)
  have hok : start.analyse files file = ((start.analyse files file).1, .ok id₀) :=
    Prod.ext rfl hid₀
  have hw₀ := hsource.analyse file
  generalize (start.analyse files file).1 = w₀ at hok hw₀
  have hknown₀ : w₀.get? file = some id₀ := by
    obtain ⟨read, depth, hrun⟩ := exists_run_analyse files start file
    rw [hok] at hrun
    exact hrun.known_of_ok hsource.faithful.toIndexed
  obtain ⟨ρ, hembeds, hρ⟩ := hw₀.exists_embeds hw hstart fun name i hname =>
    hw.isSome_path_of_alone hblank hstart hsome hok hname
  obtain ⟨name, hresolve, hname⟩ := hw.path_of_known hknown
  obtain ⟨name₀, hresolve₀, hname₀⟩ := hw₀.path_of_known hknown₀
  cases hresolve₀.symm.trans hresolve
  refine ⟨w₀, id₀, ρ, hok, hknown₀, hw₀, hembeds, ?_⟩
  exact Option.some.inj ((hρ name id₀ hname₀).symm.trans hname)

/-- The descriptor is that of the file when nothing else is analysed, but for the name. -/
def Alone (files : FileView) (start : Workspace) (file : String) (desc : FileDesc) : Prop :=
  ∃ w id program, start.analyse files file = (w, .ok id) ∧ w.program? id = some program ∧
    desc.unnamed = (program.fileDesc w.programs).unnamed

theorem Alone.unique
    {desc desc' : FileDesc} (h : Alone files start file desc)
    (h' : Alone files start file desc') : desc.unnamed = desc'.unnamed := by
  obtain ⟨w, id, program, hanalyse, hprogram, hdesc⟩ := h
  obtain ⟨w', id', program', hanalyse', hprogram', hdesc'⟩ := h'
  obtain ⟨rfl, hid⟩ := Prod.mk.inj (hanalyse.symm.trans hanalyse')
  cases hid
  cases hprogram.symm.trans hprogram'
  rw [hdesc, hdesc']

theorem Blank.fileDesc_eq_describe
    (hblank : start.Blank) (hok : start.analyse files file = (w, .ok id)) {program : Program}
    (hprogram : w.program? id = some program) :
    program.fileDesc w.programs = program.describe w.programs := by
  obtain ⟨read, depth, hrun⟩ := exists_run_analyse files start file
  rw [hok] at hrun
  have hkept : w.kept? id = none := by
    rw [hrun.kept?_eq id, kept?, program?, hblank.programs]
    rfl
  rw [kept?, hprogram, Option.bind_some] at hkept
  rw [Program.fileDesc, hkept, Option.getD_none]

/-- Made now, the descriptor of a file that is known is the one of the file alone. -/
theorem Traced.alone_describe
    (hw : Traced files start w) (hblank : start.Blank) (hstart : Uniform files start)
    (hknown : w.get? file = some id) {program : Program} (hprogram : w.program? id = some program) :
    Alone files start file (program.describe w.programs) := by
  obtain ⟨w₀, id₀, ρ, hok, hknown₀, hw₀, hembeds, rfl⟩ :=
    hw.exists_embeds_alone hblank hstart hknown
  obtain ⟨program₀, hprogram₀⟩ : ∃ program₀, w₀.program? id₀ = some program₀ :=
    ⟨_, getElem?_eq_getElem (hw₀.faithful.lt_of_file hknown₀)⟩
  refine ⟨w₀, id₀, program₀, hok, hprogram₀, ?_⟩
  have hschema : program.schema = program₀.schema.renumber ρ := by
    have hsame : (w.program? (ρ id₀)).map (·.schema) =
        (w₀.program? id₀).map (·.schema.renumber ρ) := hembeds.schema id₀
    rw [hprogram₀, hprogram] at hsame
    exact Option.some.inj hsame
  rw [hblank.fileDesc_eq_describe hok hprogram₀, hembeds.describe_eq hschema]
  rfl

/-! ## Descriptors that are kept -/

/-- Apart from the descriptors that are kept, the workspace is what requests have made of `start`,
and the descriptors are those of the files alone. -/
structure Current (files : FileView) (start w : Workspace) : Prop where
  traced : Traced files start w.clear
  kept : ∀ {id program desc}, w.program? id = some program → program.descriptor = some desc →
    desc.file = program.file ∧ Alone files start program.file desc

theorem Blank.current (h : start.Blank) (files : FileView) : Current files start start where
  traced := by
    have hprograms : start.programs.clear = start.programs := by
      rw [h.programs]
      rfl
    rw [clear, hprograms]
    exact h.traced files
  kept := by simp [program?, h.programs]

/-- What analyses and the keeping of descriptors keep, all actions keep that leave the dialects
alone. -/
theorem actAll_preserves_of_setup
    {P : Workspace → Prop} (hactions : ∀ suffix dialect, .register suffix dialect ∉ actions)
    (hanalyse : ∀ w file, P w → P (w.analyse files file).1)
    (hremember : ∀ w ids, P w → P { w with programs := w.programs.remember ids }) (hw : P w) :
    P (w.actAll (actions.map (files, ·))) := by
  refine actAll_preserves ?_ ?_ hremember hw
  · intro action haction
    obtain ⟨action, -, rfl⟩ := mem_map.1 haction
    exact hanalyse
  · intro view suffix dialect hmem
    obtain ⟨action, haction, heq⟩ := mem_map.1 hmem
    obtain ⟨-, rfl⟩ := Prod.mk.inj heq
    exact absurd haction (hactions suffix dialect)

namespace Current

variable (hw : Current files start w)

include hw

theorem indexed : Indexed w :=
  hw.traced.faithful.toIndexed.of_clear

theorem analyse (file : String) : Current files start (w.analyse files file).1 := by
  refine ⟨?_, fun hprogram hdesc => ?_⟩
  · have htraced := hw.traced.analyse file
    rwa [analyse_clear] at htraced
  · exact hw.kept (program?_of_kept hw.indexed hprogram hdesc) hdesc

theorem exists_program (hknown : w.get? file = some id) :
    ∃ program, w.program? id = some program ∧ w.get? program.file = some id := by
  have hprogram := getElem?_eq_getElem (hw.indexed.lt_of_file hknown)
  exact ⟨_, hprogram, hw.indexed.file_of_program hprogram⟩

variable (hblank : start.Blank) (hstart : Uniform files start)

include hblank hstart

theorem alone_describe
    (hknown : w.get? file = some id) {program : Program} (hprogram : w.program? id = some program) :
    Alone files start file (program.describe w.programs) := by
  rw [← Program.describe_clear]
  refine hw.traced.alone_describe hblank hstart hknown ?_
  rw [program?, clear, Arena.getElem?_clear]
  exact congrArg (Option.map (·.clear)) hprogram

theorem fileDesc_eq_describe {program : Program} (hprogram : w.program? id = some program) :
    program.fileDesc w.programs = program.describe w.programs := by
  cases hdesc : program.descriptor with
  | none => rw [Program.fileDesc, hdesc, Option.getD_none]
  | some desc =>
    obtain ⟨hfile, halone⟩ := hw.kept hprogram hdesc
    have hnow := hw.alone_describe hblank hstart (hw.indexed.file_of_program hprogram) hprogram
    have hsame : desc.unnamed = (program.describe w.programs).unnamed := halone.unique hnow
    rw [Program.fileDesc, hdesc, Option.getD_some]
    calc desc = { desc.unnamed with file := program.file } := by rw [← hfile]; rfl
      _ = { (program.describe w.programs).unnamed with file := program.file } := by rw [hsame]
      _ = program.describe w.programs := rfl

theorem remember (ids : List ProgramId) :
    Current files start { w with programs := w.programs.remember ids } := by
  refine ⟨?_, ?_⟩
  · have hclear : clear { w with programs := w.programs.remember ids } = w.clear := by
      simp only [clear, Arena.clear_remember]
    exact hclear ▸ hw.traced
  · intro id program desc hprogram hdesc
    have hremember := (Arena.getElem?_remember w.programs ids id).symm.trans hprogram
    obtain ⟨old, hold, hnew⟩ := Option.map_eq_some_iff.1 hremember
    split at hnew
    next =>
      obtain rfl := hnew
      cases hdesc
      rw [hw.fileDesc_eq_describe hblank hstart hold]
      exact ⟨rfl, hw.alone_describe hblank hstart (hw.indexed.file_of_program hold) hold⟩
    next =>
      obtain rfl := hnew
      exact hw.kept hold hdesc

/-! ## Whatever is done -/

theorem actAll (hactions : ∀ suffix dialect, .register suffix dialect ∉ actions) :
    Current files start (w.actAll (actions.map (files, ·))) :=
  actAll_preserves_of_setup hactions (fun _ file hw => hw.analyse file)
    (fun _ ids hw => hw.remember hblank hstart ids) hw

theorem get?_actAll
    (hactions : ∀ suffix dialect, .register suffix dialect ∉ actions)
    (hknown : w.get? file = some id) :
    (w.actAll (actions.map (files, ·))).get? file = some id := by
  refine (actAll_preserves_of_setup (P := fun w => Current files start w ∧ w.get? file = some id)
    hactions ?_ ?_ ⟨hw, hknown⟩).2
  · rintro w other ⟨hw, hknown⟩
    obtain ⟨read, depth, hrun⟩ := exists_run_analyse files w other
    exact ⟨hw.analyse other, (hrun.indexed_extends hw.indexed).2.names hknown⟩
  · rintro w ids ⟨hw, hknown⟩
    exact ⟨hw.remember hblank hstart ids, hknown⟩

/-- The programs that a request was answered with stay known, a file that was asked for by the name
that it was asked for. -/
theorem known_of_serve_ok
    {request : Request} {ids : List ProgramId} (hok : (w.serve files request).2 = .ok ids)
    (hactions : ∀ suffix dialect, .register suffix dialect ∉ actions) :
    let w' := (w.serve files request).1.actAll (actions.map (files, ·))
    (∀ file, request = .file file → ∃ id, ids = [id] ∧ w'.get? file = some id) ∧
      ∀ id ∈ ids, ∃ program, w'.program? id = some program ∧ w'.get? program.file = some id := by
  have hserve : Current files start (w.serve files request).1 :=
    serve_preserves (fun _ file hw => hw.analyse file) request hw
  refine ⟨?_, fun id hid => ?_⟩
  · rintro file rfl
    obtain ⟨read, depth, hrun⟩ := exists_run_analyse files w file
    cases hanswer : (w.analyse files file).2 with
    | error failure =>
      simp only [serve, hanswer] at hok
      cases hok
    | ok id =>
      simp only [serve, hanswer] at hok
      rw [hanswer] at hrun
      exact ⟨id, (Except.ok.inj hok).symm, hserve.get?_actAll hblank hstart hactions
        (hrun.known_of_ok hw.indexed)⟩
  · have hlt := hw.indexed.lt_of_serve_ok (Prod.ext rfl hok) id hid
    have hknown := hserve.indexed.file_of_program (getElem?_eq_getElem hlt)
    exact (hserve.actAll hblank hstart hactions).exists_program
      (hserve.get?_actAll hblank hstart hactions hknown)

end Current

/-- On a tree of files, analyses that succeed or fail and questions for descriptors may come in any
order.  What a request was answered with stays known.  A file that is known can be analysed alone,
in a new workspace of the same setup, and has the descriptor that it has there, but for the name of
the file; and no descriptor that is kept differs from the one that would be made now. -/
theorem fileDesc_eq_alone
    (tree : FileTree) (base : String) (config : ParseConfig) (settings : List Setting)
    (actions : List Action) (hactions : ∀ suffix dialect, .register suffix dialect ∉ actions) :
    let start := new base config settings
    let w := start.actAll (actions.map (tree.view, ·))
    (∀ before request after ids, actions = before ++ .serve request :: after →
      ((start.actAll (before.map (tree.view, ·))).serve tree request).2 = .ok ids →
        (∀ file, request = .file file → ∃ id, ids = [id] ∧ w.get? file = some id) ∧
        ∀ id ∈ ids, ∃ program, w.program? id = some program ∧ w.get? program.file = some id) ∧
    ∀ file id, w.get? file = some id → ∃ program w₀ id₀ program₀,
      w.program? id = some program ∧
      start.analyse tree file = (w₀, .ok id₀) ∧ w₀.program? id₀ = some program₀ ∧
      program.fileDesc w.programs = program.describe w.programs ∧
      (program.fileDesc w.programs).unnamed = (program₀.fileDesc w₀.programs).unnamed := by
  intro start w
  have hblank : start.Blank := blank_new base config settings
  have hstart : Uniform tree start := uniform_tree tree (plainSuffixes_new base config settings)
  have hcurrent : Current tree start start := hblank.current tree
  have hw : Current tree start w := hcurrent.actAll hblank hstart hactions
  refine ⟨?_, ?_⟩
  · rintro before request after ids rfl hok
    have hbefore : Current tree start (start.actAll (before.map (tree.view, ·))) :=
      hcurrent.actAll hblank hstart fun suffix dialect hmem =>
        hactions suffix dialect (mem_append_left _ hmem)
    have hsplit : w = ((start.actAll (before.map (tree.view, ·))).serve tree request).1.actAll
        (after.map (tree.view, ·)) := by
      simp only [w, actAll, map_append, foldl_append]
      rfl
    rw [hsplit]
    refine hbefore.known_of_serve_ok hblank hstart hok fun suffix dialect hmem => ?_
    exact hactions suffix dialect (mem_append_right _ (mem_cons_of_mem _ hmem))
  · intro file id hknown
    obtain ⟨program, hprogram, -⟩ := hw.exists_program hknown
    have hnow := hw.fileDesc_eq_describe hblank hstart hprogram
    obtain ⟨w₀, id₀, program₀, hok, hprogram₀, hsame⟩ :=
      hw.alone_describe hblank hstart hknown hprogram
    exact ⟨program, w₀, id₀, program₀, hprogram, hok, hprogram₀, hnow, hnow ▸ hsame⟩

/-- An analysis that fails, one that enters a cycle at its second file, and one of the first file by
another name, with questions in between. -/
def cycleActions : List Action :=
  [.serve (.file "c.wproto"), .serve (.file "b.wproto"), .describe 0, .serve (.file "./a.wproto"),
    .describeAll 1]

theorem fileDesc_eq_alone_cycle :
    let start := new "" ⟨false⟩ []
    let w := start.actAll (cycleActions.map (cycle.view, ·))
    (start.analyse cycle "c.wproto").2.isOk = false ∧ w.get? "a.wproto" = some 1 ∧
      w.get? "./a.wproto" = some 1 ∧ ∃ program w₀ id₀ program₀, w.program? 1 = some program ∧
        start.analyse cycle "./a.wproto" = (w₀, .ok id₀) ∧ w₀.program? id₀ = some program₀ ∧
        (program.fileDesc w.programs).unnamed = (program₀.fileDesc w₀.programs).unnamed := by
  intro start w
  have hknown : (start.analyse cycle "c.wproto").2.isOk = false ∧
      w.get? "a.wproto" = some 1 ∧ w.get? "./a.wproto" = some 1 := by decide +kernel
  obtain ⟨-, hall⟩ := fileDesc_eq_alone cycle "" ⟨false⟩ [] cycleActions (by simp [cycleActions])
  obtain ⟨program, w₀, id₀, program₀, hprogram, hok, hprogram₀, -, hsame⟩ :=
    hall "./a.wproto" 1 hknown.2.2
  exact ⟨hknown.1, hknown.2.1, hknown.2.2, program, w₀, id₀, program₀, hprogram, hok, hprogram₀,
    hsame⟩

end Workspace

end Idl

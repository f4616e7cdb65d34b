import Idl.Proofs.Files.Spelling
import Idl.Proofs.Workspace.Binding

/-!
# Workspaces that reflect their files

As long as the files stay as they are, a workspace holds what is read from them: every name that it
knows leads to the program of the file with that name.  This is true at every moment of a run, and
that is enough for linking, which sees outlines only.
-/

namespace Idl.Workspace

variable {file item source : String} {id : ProgramId} {program program' : Program} {name : FileName}
variable {files : FileView} {w w' : Workspace}

/-- Every program has the name and the outline of what is read from its file, and every name leads
to the program of its file. -/
structure Faithful (files : FileView) (w : Workspace) : Prop extends Indexed w where
  named : ∀ {file id}, w.get? file = some id →
    ∃ name, files.resolve (Path.join w.base file) = .ok name ∧ w.byPath.lookup name = some id
  read : ∀ {id : ProgramId} {program : Program}, w.programs[id]? = some program →
    ∃ origin name, Reads files w origin.file name origin ∧ program.file = origin.file ∧
      program.outline = origin.outline

/-! ## Runs -/

/-- A run gives names to files that lead to the paths of their programs. -/
theorem named_of_extends
    {own : Option ProgramId} (hw : Faithful files w) (h : Extends files own w w')
    (hfile : w'.get? file = some id) :
    ∃ name, files.resolve (Path.join w'.base file) = .ok name ∧
      w'.byPath.lookup name = some id := by
  rw [base_eq_of_setup h.setup]
  rcases h.named hfile with hold | hnew
  · obtain ⟨name, hresolve, hname⟩ := hw.named hold
    exact ⟨name, hresolve, h.path hname⟩
  · exact hnew

theorem read_of_kept
    (hw : Faithful files w) (hsetup : w'.setup = w.setup)
    (hkept : ∀ {id : ProgramId} {program : Program}, w'.programs[id]? = some program →
      ∃ old, w.programs[id]? = some old ∧ program.file = old.file ∧ program.outline = old.outline)
    (h : w'.programs[id]? = some program) :
    ∃ origin name, Reads files w' origin.file name origin ∧ program.file = origin.file ∧
      program.outline = origin.outline := by
  obtain ⟨old, hold, hfile, houtline⟩ := hkept h
  obtain ⟨origin, name, hreads, hfile', houtline'⟩ := hw.read hold
  exact ⟨origin, name, hreads.of_setup hsetup, hfile.trans hfile', houtline.trans houtline'⟩

theorem Faithful.add
    (hw : Faithful files w) (hfresh : Fresh files w file name)
    (hread : w.readProgram files file name = .ok (program, source)) :
    Faithful files (w.add file name program) := by
  refine ⟨hw.toIndexed.add hfresh (file_of_readProgram hread),
    named_of_extends hw (extends_add hfresh program), ?_⟩
  intro id other hother
  have happend : (w.programs ++ [program])[id]? = some other := hother
  rcases Nat.lt_or_ge id w.programs.length with hlt | hge
  · rw [List.getElem?_append_left hlt] at happend
    obtain ⟨origin, originName, hreads, hsame⟩ := hw.read happend
    exact ⟨origin, originName, hreads.of_setup rfl, hsame⟩
  · rw [List.getElem?_append_right hge, List.getElem?_singleton] at happend
    split at happend
    next =>
      cases happend
      refine ⟨program, name, ?_, rfl, rfl⟩
      rw [file_of_readProgram hread]
      exact (hfresh.reads hread).of_setup rfl
    next => cases happend

theorem Faithful.bindImport (hw : Faithful files w) (id index : Nat) (target : ProgramId) :
    Faithful files (w.bindImport id index target) := by
  have hsetup : (w.bindImport id index target).setup = w.setup := rfl
  refine ⟨hw.toIndexed.bindImport .., named_of_extends hw (extends_bindImport ..),
    read_of_kept hw hsetup ?_⟩
  intro i program hprogram
  by_cases hi : id = i
  · subst hi
    have hmodify := (List.getElem?_modify_eq _ _ _).symm.trans hprogram
    obtain ⟨old, hold, rfl⟩ := Option.map_eq_some_iff.1 hmodify
    have hforget := Program.forget_bindImport old index target
    exact ⟨old, hold, congrArg (·.file) hforget, Program.outline_eq_of_forget hforget⟩
  · exact ⟨program, (List.getElem?_modify_ne _ _ hi).symm.trans hprogram, rfl, rfl⟩

theorem Faithful.linkAt (hw : Faithful files w) (h : w.linkAt id source = .ok w') :
    Faithful files w' := by
  obtain ⟨programs, heq, hlength, hother⟩ := linkAt_eq_ok h
  have hsetup : w'.setup = w.setup := by rw [heq]; rfl
  refine ⟨hw.toIndexed.linkAt h, ?_, read_of_kept hw hsetup ?_⟩
  · intro file id hfile
    rw [heq] at hfile ⊢
    exact hw.named hfile
  · intro i program hprogram
    by_cases hi : i = id
    · subst hi
      have hlt : i < w.programs.length := by
        have := lt_of_getElem? hprogram
        rw [heq] at this
        exact hlength ▸ this
      obtain ⟨linked, hlink, -, hlinked⟩ := linkAt_programs h (List.getElem?_eq_getElem hlt)
      obtain ⟨references, services, messages, hshape⟩ := linked_eq hlink
      rw [hshape] at hlinked
      cases hlinked.symm.trans hprogram
      exact ⟨_, List.getElem?_eq_getElem hlt, rfl, rfl⟩
    · rw [heq] at hprogram
      exact ⟨program, (hother i hi).symm.trans hprogram, rfl, rfl⟩

theorem Faithful.of_programs_eq
    (hw : Faithful files w) (hw' : Indexed w') (h : Extends files none w w')
    (hprograms : w'.programs = w.programs) : Faithful files w' := by
  refine ⟨hw', named_of_extends hw h, read_of_kept hw h.setup ?_⟩
  intro id program hprogram
  exact ⟨program, hprograms ▸ hprogram, rfl, rfl⟩

theorem Faithful.evictFrom
    {w₁ : Workspace} (hw : Faithful files w) (hw₁ : Indexed w₁) (hfresh : Fresh files w file name)
    (h : Extends files (some w.programs.length) (w.add file name program) w₁) :
    Faithful files (w₁.evictFrom w.programs.length) :=
  hw.of_programs_eq (hw.toIndexed.evictFrom hw₁ hfresh h)
    (extends_evictFrom hw.toIndexed hw₁ hfresh h) (programs_evictFrom h)

theorem Run.faithful
    {task : Task} {read : List FileName} {depth : Nat} {result : Except Failure ProgramId}
    (h : Run files w task read depth w' result) (hw : Faithful files w) : Faithful files w' := by
  induction h with
  | known | lost | refused | followed => exact hw
  | renamed hunknown hresolve hregistered =>
    exact hw.of_programs_eq (hw.put_file hunknown (hw.lt_of_path hregistered))
      (extends_put_file hunknown hresolve hregistered) rfl
  | loaded hfresh hread _ hlink ih => exact (ih (hw.add hfresh hread)).linkAt hlink
  | unlinked hfresh hread hfollow _ _ | broken hfresh hread hfollow _ =>
    obtain ⟨hw₁, hextends⟩ := hfollow.indexed_extends (hw.add hfresh hread).toIndexed
    exact hw.evictFrom hw₁ hfresh hextends
  | bound _ _ ihfirst ihrest => exact ihrest ((ihfirst hw).bindImport ..)
  | stopped _ ih => exact ih hw

/-! ## What imports lead to -/

theorem Reads.unique
    {name' : FileName} (h : Reads files w file name program)
    (h' : Reads files w file name' program') : name' = name ∧ program' = program := by
  obtain ⟨hresolve, source, hread⟩ := reads_iff.1 h
  obtain ⟨hresolve', source', hread'⟩ := reads_iff.1 h'
  cases hresolve'.symm.trans hresolve
  cases hread'.symm.trans hread
  exact ⟨rfl, rfl⟩

/-- Two readings of one file differ in the spelling of its name. -/
theorem Uniform.eq_of_reads
    (hw : Uniform files w) {file' : String} (h : Reads files w file name program)
    (h' : Reads files w file' name program') : program' = { program with file := file' } :=
  ((hw h h'.1).unique h').2

/-- The import of a file is bound to a program with the outline of what is read from that file. -/
def Serves (files : FileView) (w : Workspace) (arena : Arena)
    (target : String → Option ProgramId) (item : String) : Prop :=
  ∃ id program origin name, target item = some id ∧ arena[id]? = some program ∧
    files.resolve (Path.join w.base item) = .ok name ∧ Reads files w origin.file name origin ∧
      program.outline = origin.outline

/-- A name that a faithful workspace knows is that of the file from which the program was read. -/
theorem Faithful.path_of_known (hw : Faithful files w) (hknown : w.get? item = some id) :
    ∃ program origin name, w.programs[id]? = some program ∧
      files.resolve (Path.join w.base item) = .ok name ∧ w.byPath.lookup name = some id ∧
      Reads files w origin.file name origin ∧ program.file = origin.file ∧
      program.outline = origin.outline := by
  have hlt : id < w.programs.length := hw.lt_of_file hknown
  have hprogram := List.getElem?_eq_getElem hlt
  obtain ⟨name, hresolve, hname⟩ := hw.named hknown
  obtain ⟨origin, name', hreads, hfile, houtline⟩ := hw.read hprogram
  -- the program goes by the name that its file was read under, which leads to the same path
  obtain ⟨name'', hresolve'', hname''⟩ := hw.named (hw.file_of_program hprogram)
  obtain rfl := hw.path_unique hname hname''
  rw [hfile] at hresolve''
  cases hresolve''.symm.trans hreads.1
  exact ⟨_, origin, name, hprogram, hresolve, hname, hreads, hfile, houtline⟩

theorem Faithful.serves (hw : Faithful files w) (hknown : (w.get? item).isSome) :
    Serves files w w.programs w.get? item := by
  obtain ⟨id, hid⟩ := Option.isSome_iff_exists.1 hknown
  obtain ⟨program, origin, name, hprogram, hresolve, -, hreads, -, houtline⟩ :=
    hw.path_of_known hid
  exact ⟨id, program, origin, name, hid, hprogram, hresolve, hreads, houtline⟩

theorem Serves.of_setup
    {arena : Arena} {target : String → Option ProgramId} (h : Serves files w arena target item)
    (hsetup : w'.setup = w.setup) : Serves files w' arena target item := by
  obtain ⟨id, program, origin, name, htarget, hprogram, hresolve, hreads, houtline⟩ := h
  rw [← base_eq_of_setup hsetup] at hresolve
  exact ⟨id, program, origin, name, htarget, hprogram, hresolve, hreads.of_setup hsetup, houtline⟩

/-- Bound to programs of the same files, a program is linked alike in two arenas, however its own
file is spelt. -/
theorem links_of_serves
    (hw : Uniform files w) {origin : Program} (file : String) {arena arena' : Arena}
    {target target' : String → Option ProgramId} {id' : ProgramId}
    (hunlinked : origin.references = none)
    (hserves : ∀ item ∈ origin.schema.imports, Serves files w arena target item.file.value)
    (hserves' : ∀ item ∈ origin.schema.imports, Serves files w arena' target' item.file.value)
    (hself : ∀ old, arena[id]? = some old → old.outline = origin.outline)
    (hself' : ∀ old, arena'[id']? = some old → old.outline = origin.outline)
    (h : (origin.bindTo target).Links arena id) :
    (Program.bindTo target' { origin with file }).Links arena' id' := by
  refine h.of_outlines ?_ hunlinked ?_ hself hself'
  · rw [Program.forget_bindTo, Program.forget_bindTo]
    rfl
  · simp only [Program.bindTo, List.map_map]
    refine List.map_congr_left fun item hitem => ?_
    obtain ⟨i, program, read, name, htarget, hprogram, hresolve, hreads, houtline⟩ :=
      hserves item hitem
    obtain ⟨i', program', read', name', htarget', hprogram', hresolve', hreads', houtline'⟩ :=
      hserves' item hitem
    cases hresolve'.symm.trans hresolve
    have hsame : program'.outline = program.outline := by
      rw [houtline, houtline', hw.eq_of_reads hreads hreads']
      rfl
    simp only [Function.comp_apply, Arena.importOutline, Arena.imported?, htarget, htarget',
      hprogram, hprogram', Option.bind_eq_bind, Option.bind_some, Option.pure_def,
      Option.map_some, hsame]

end Idl.Workspace

import Idl.Proofs.Workspace.Closure
import Mathlib.Data.Set.Card

/-!
# An analysis ends

A call goes on to read a file only when the file is not registered yet, and registers it before it
follows its imports.  Nothing that is registered is taken back while the call goes on: programs are
dropped only on the way out of a failure.  So no file is read twice, and calls nest no deeper than
there are files in the import closure.
-/

namespace Idl.Workspace

open List

variable {name : FileName} {program : Program} {id : ProgramId} {importer : String}
variable {files : FileView} {w w' : Workspace} {task : Task} {read : List FileName} {depth : Nat}
  {result : Except Failure ProgramId}

/-- The names of the files that are registered. -/
def paths (w : Workspace) : Set FileName := {name | name ∈ w.byPath.map (·.1)}

theorem Fresh.not_mem_paths {file : String} (h : Fresh files w file name) : name ∉ w.paths := by
  intro hmem
  obtain ⟨entry, hentry, rfl⟩ := mem_map.1 hmem
  simpa using lookup_eq_none_iff.1 h.unregistered entry hentry

theorem paths_add {file : String} (h : Fresh files w file name) (program : Program) :
    (w.add file name program).paths = insert name w.paths := by
  ext other
  simp [paths, byPath_add h, or_comm]

@[simp] theorem paths_bindImport (w : Workspace) (id index : Nat) (target : ProgramId) :
    (w.bindImport id index target).paths = w.paths := rfl

theorem Run.paths_union (h : Run files w task read depth w' (.ok id)) :
    w'.paths = w.paths ∪ {name | name ∈ read} := by
  ext name
  simp only [paths, h.paths_eq rfl, mem_append, Set.mem_ofPred_eq, Set.mem_union]

/-! ## No file is read twice -/

theorem nodup_of_add
    {file : String} (hfresh : Fresh files w file name)
    (hread : read.Nodup ∧ ∀ other ∈ read, other ∉ (w.add file name program).paths) :
    (name :: read).Nodup ∧ ∀ other ∈ name :: read, other ∉ w.paths := by
  rw [paths_add hfresh] at hread
  refine ⟨nodup_cons.2 ⟨fun hmem => hread.2 name hmem (Set.mem_insert _ _), hread.1⟩, ?_⟩
  intro other hother
  rcases mem_cons.1 hother with rfl | hother
  · exact hfresh.not_mem_paths
  · exact fun hmem => hread.2 other hother (Set.mem_insert_of_mem _ hmem)

/-- A run reads no file twice, and none that was registered when it began. -/
theorem Run.read_nodup (h : Run files w task read depth w' result) :
    read.Nodup ∧ ∀ name ∈ read, name ∉ w.paths := by
  induction h with
  | known | lost | renamed => simp
  | refused hfresh _ => simpa using hfresh.not_mem_paths
  | loaded hfresh _ _ _ ih => exact nodup_of_add hfresh ih
  | unlinked hfresh _ _ _ ih | broken hfresh _ _ ih => exact nodup_of_add hfresh ih
  | followed => simp
  | bound hfirst _ ihfirst ihrest =>
    -- what the first import has read is registered by the time the rest is followed
    rw [paths_bindImport, hfirst.paths_union] at ihrest
    refine ⟨nodup_append.2 ⟨ihfirst.1, ihrest.1, ?_⟩, ?_⟩
    · rintro name hname _ hname' rfl
      exact ihrest.2 name hname' (Or.inr hname)
    · intro name hname
      rcases mem_append.1 hname with hname | hname
      · exact ihfirst.2 name hname
      · exact fun hmem => ihrest.2 name hname (Or.inl hmem)
  | stopped _ ih => exact ih

/-! ## How deep calls nest -/

/-- The names of the files that a task may come to. -/
def Task.reach (files : FileView) (w : Workspace) : Task → Set FileName
  | file item => closurePaths files w item
  | imports _ _ left => ⋃ entry ∈ {entry | entry ∈ left}, closurePaths files w entry.1

/-- The files of a task that are not registered, and one more for a task that is part of a load:
so deep its calls may nest. -/
noncomputable def Task.room (files : FileView) (w : Workspace) : Task → Nat
  | file item => ((file item).reach files w \ w.paths).ncard
  | imports importer id left => ((imports importer id left).reach files w \ w.paths).ncard + 1

theorem Task.reach_eq_of_setup (h : w'.setup = w.setup) (files : FileView) (task : Task) :
    task.reach files w' = task.reach files w := by
  cases task with
  | file item => exact closurePaths_eq_of_setup h files item
  | imports importer id left => simp only [reach, closurePaths_eq_of_setup h]

@[simp] theorem reach_add
    (w : Workspace) (file : String) (name : FileName) (program : Program) (task : Task) :
    task.reach files (w.add file name program) = task.reach files w :=
  Task.reach_eq_of_setup rfl files task

@[simp] theorem reach_bindImport
    (w : Workspace) (id index : Nat) (target : ProgramId) (task : Task) :
    task.reach files (w.bindImport id index target) = task.reach files w :=
  Task.reach_eq_of_setup rfl files task

theorem Task.reach_finite (files : FileView) (w : Workspace) (task : Task) :
    (task.reach files w).Finite := by
  cases task with
  | file item => exact closurePaths_finite files w item
  | imports importer id left =>
    exact (finite_toSet left).biUnion fun entry _ => closurePaths_finite files w entry.1

/-- The imports of a program lead to files in the closure of the file that it was read from. -/
theorem reach_importsOf_subset {file : String} (hreads : Reads files w file name program) :
    (Task.imports importer id (importsOf program)).reach files w ⊆ closurePaths files w file :=
  Set.iUnion₂_subset fun _ hentry =>
    closurePaths_subset_of_imports (imports_of_mem_importsOf hreads hentry)

theorem reach_cons
    (importer file : String) (id : ProgramId) (index : Nat) (left : List (String × Nat)) :
    (Task.imports importer id ((file, index) :: left)).reach files w =
      closurePaths files w file ∪ (Task.imports importer id left).reach files w := by
  ext name
  simp [Task.reach]

theorem room_add_le
    {file : String} (hfresh : Fresh files w file name) (hreads : Reads files w file name program) :
    (Task.imports importer id (importsOf program)).room files (w.add file name program) ≤
      (Task.file file).room files w := by
  have hmem : name ∈ closurePaths files w file \ w.paths :=
    ⟨⟨file, inClosure_refl files w file, hfresh.resolves⟩, hfresh.not_mem_paths⟩
  have hfinite : (closurePaths files w file \ w.paths).Finite :=
    (closurePaths_finite files w file).sdiff
  have hsubset : (Task.imports importer id (importsOf program)).reach files
      (w.add file name program) \ (w.add file name program).paths ⊆
        (closurePaths files w file \ w.paths) \ {name} := by
    rintro other ⟨hreach, hnew⟩
    rw [reach_add] at hreach
    rw [paths_add hfresh] at hnew
    refine ⟨⟨reach_importsOf_subset hreads hreach, fun h => hnew (Set.mem_insert_of_mem _ h)⟩, ?_⟩
    rintro rfl
    exact hnew (Set.mem_insert _ _)
  calc (Task.imports importer id (importsOf program)).room files (w.add file name program)
      ≤ ((closurePaths files w file \ w.paths) \ {name}).ncard + 1 :=
        Nat.add_le_add_right (Set.ncard_le_ncard hsubset hfinite.sdiff) 1
    _ = (Task.file file).room files w := Set.ncard_sdiff_singleton_add_one hmem hfinite

theorem read_subset_of_add
    {file : String} (hreads : Reads files w file name program)
    (hread : ∀ other ∈ read, other ∈ (Task.imports importer id (importsOf program)).reach files
      (w.add file name program)) :
    ∀ other ∈ name :: read, other ∈ (Task.file file).reach files w := by
  intro other hother
  rcases mem_cons.1 hother with rfl | hother
  · exact ⟨file, inClosure_refl files w file, hreads.1⟩
  · have hreach := hread other hother
    rw [reach_add] at hreach
    exact reach_importsOf_subset hreads hreach

/-- A run reads files of its closure only. -/
theorem Run.read_subset
    (h : Run files w task read depth w' result) : ∀ name ∈ read, name ∈ task.reach files w := by
  induction h with
  | known | lost | renamed => simp
  | @refused w file name _ hfresh _ =>
    intro other hother
    obtain rfl := mem_singleton.1 hother
    exact ⟨file, inClosure_refl files w file, hfresh.resolves⟩
  | loaded hfresh hread _ _ ih => exact read_subset_of_add (hfresh.reads hread) ih
  | unlinked hfresh hread _ _ ih => exact read_subset_of_add (hfresh.reads hread) ih
  | broken hfresh hread _ ih => exact read_subset_of_add (hfresh.reads hread) ih
  | followed => simp
  | bound hfirst _ ihfirst ihrest =>
    rw [reach_bindImport, Task.reach_eq_of_setup hfirst.setup_eq] at ihrest
    intro name hname
    rw [reach_cons]
    rcases mem_append.1 hname with hname | hname
    · exact Or.inl (ihfirst name hname)
    · exact Or.inr (ihrest name hname)
  | stopped _ ih =>
    intro name hname
    rw [reach_cons]
    exact Or.inl (ih name hname)

/-- Calls nest no deeper than there are files of the closure that were not registered when the run
began. -/
theorem Run.depth_le (h : Run files w task read depth w' result) : depth ≤ task.room files w := by
  have hfirst_le : ∀ (w : Workspace) (importer file : String) (id : ProgramId) (index : Nat)
      (left : List (String × Nat)), (Task.file file).room files w + 1 ≤
        (Task.imports importer id ((file, index) :: left)).room files w := by
    intro w importer file id index left
    refine Nat.add_le_add_right (Set.ncard_le_ncard ?_ (Task.reach_finite files w _).sdiff) 1
    rw [reach_cons]
    exact Set.sdiff_subset_sdiff_left Set.subset_union_left
  induction h with
  | known | lost | renamed | refused => simp
  | loaded hfresh hread _ _ ih => exact ih.trans (room_add_le hfresh (hfresh.reads hread))
  | unlinked hfresh hread _ _ ih =>
    exact ih.trans (room_add_le hfresh (hfresh.reads hread))
  | broken hfresh hread _ ih => exact ih.trans (room_add_le hfresh (hfresh.reads hread))
  | followed => simp
  | @bound w w₁ _ importer file id target index left _ _ _ _ _ hfirst _ ihfirst ihrest =>
    refine max_le ((Nat.add_le_add_right ihfirst 1).trans (hfirst_le w ..)) (ihrest.trans ?_)
    refine Nat.add_le_add_right (Set.ncard_le_ncard ?_ (Task.reach_finite files w _).sdiff) 1
    rw [reach_bindImport, Task.reach_eq_of_setup hfirst.setup_eq, reach_cons, paths_bindImport,
      hfirst.paths_union]
    exact Set.sdiff_subset_sdiff Set.subset_union_right Set.subset_union_left
  | stopped _ ih => exact (Nat.add_le_add_right ih 1).trans (hfirst_le ..)

/-! ## The main statement -/

/-- Every call of `analyse` ends: it is its own recursion, without a bound on the calls, and has a
finite tree of calls.  In any such tree no file is read twice, only files of the import closure
are read, of which there are finitely many, and the calls nest at most as deep as there are files
in the closure. -/
theorem analyse_ends
    (files : FileView) (w : Workspace) (file : String) :
    w.analyse files file = w.analyseWith files (Workspace.analyse files) file ∧
    (∃ read depth, Run files w (.file file) read depth (w.analyse files file).1
      (w.analyse files file).2) ∧
    (closurePaths files w file).Finite ∧
    ∀ read depth w' result, Run files w (.file file) read depth w' result →
      (w', result) = w.analyse files file ∧ read.Nodup ∧
      (∀ name ∈ read, name ∈ closurePaths files w file) ∧
      depth ≤ (closurePaths files w file).ncard := by
  refine ⟨analyse_eq_analyseWith files w file, exists_run_analyse files w file,
    closurePaths_finite files w file, ?_⟩
  intro read depth w' result hrun
  refine ⟨hrun.answer_eq.symm, hrun.read_nodup.1, hrun.read_subset, hrun.depth_le.trans ?_⟩
  exact Set.ncard_le_ncard Set.sdiff_subset (closurePaths_finite files w file)

end Idl.Workspace

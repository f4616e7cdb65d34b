import Idl.Proofs.Except
import Idl.Workspace

/-!
# Runs of an analysis

A run is the tree of calls that an analysis makes, as a relation: which files it reads, how deep its
calls nest, and what it leaves behind.  A run is finite by construction.  The main statement is that
every call of `analyse` has exactly one run, so that whatever is proved of runs, by induction on the
tree of calls, holds of `analyse`.
-/

namespace Idl.Workspace

variable {files : FileView} {analyse : Workspace → String → Workspace × Except Failure ProgramId}
  {w w' : Workspace} {result : Except Failure ProgramId} {read : List FileName} {name : FileName}
  {id : ProgramId} {program : Program} {source : String} {depth bound : Nat}

/-! ## The setup of a workspace -/

/-- What decides how a workspace finds and reads files. -/
structure Setup where
  base : String
  config : ParseConfig
  settings : List Setting
  parsers : Assoc String Dialect

/-- The setup of a workspace, which no analysis changes. -/
def setup (w : Workspace) : Setup := ⟨w.base, w.config, w.settings, w.parsers⟩

theorem base_eq_of_setup (h : w'.setup = w.setup) : w'.base = w.base :=
  congrArg Setup.base h

theorem readProgram_eq_of_setup (h : w'.setup = w.setup) (files : FileView) :
    w'.readProgram files = w.readProgram files := by
  obtain ⟨base, config, settings, parsers, programs, byFile, byPath⟩ := w
  obtain ⟨base', config', settings', parsers', programs', byFile', byPath'⟩ := w'
  simp only [setup, Setup.mk.injEq] at h
  obtain ⟨rfl, rfl, rfl, rfl⟩ := h
  rfl

/-! ## Linking -/

/-- What linking a program takes, and what it leaves behind. -/
theorem linkProgram_eq_ok_iff :
    w.linkProgram id program source = .ok w' ↔
      ∃ linked, program.linkImports w.programs = .ok linked ∧
        (linked.bindReferences (w.programs.set id linked) id).2 = none ∧
        w' = { w with
          programs := w.programs.set id
            (linked.bindReferences (w.programs.set id linked) id).1 } := by
  simp only [linkProgram, bind_eq_ok_iff, mapError_eq_ok_iff]
  constructor
  · rintro ⟨linked, hlink, h⟩
    refine ⟨linked, hlink, ?_⟩
    split at h
    next bound heq => simp_all [pure, Except.pure]
    next => cases h
  · rintro ⟨linked, hlink, hbind, rfl⟩
    refine ⟨linked, hlink, ?_⟩
    split
    next bound heq => simp [heq, pure, Except.pure]
    next fault heq => simp [heq] at hbind

theorem linkAt_eq_ok (h : w.linkAt id source = .ok w') :
    ∃ programs : Arena, w' = { w with programs } ∧ programs.length = w.programs.length ∧
      ∀ i ≠ id, programs[i]? = w.programs[i]? := by
  unfold linkAt at h
  split at h
  · cases h
    exact ⟨w.programs, rfl, rfl, fun _ _ => rfl⟩
  · obtain ⟨linked, -, -, rfl⟩ := linkProgram_eq_ok_iff.1 h
    exact ⟨_, rfl, List.length_set, fun i hi => List.getElem?_set_ne hi.symm⟩

/-! ## Runs -/

/-- A file that is asked for under a name that is not known, and that is not registered under
another name. -/
structure Fresh (files : FileView) (w : Workspace) (file : String) (name : FileName) : Prop where
  unknown : w.get? file = none
  resolves : files.resolve (Path.join w.base file) = .ok name
  unregistered : w.byPath.lookup name = none

/-- What can be asked of a workspace. -/
inductive Task
  | file (file : String)
  /-- To follow the imports that are left of a registered program. -/
  | imports (importer : String) (id : ProgramId) (left : List (String × Nat))

/-- `Run files w task read depth w' result`: the workspace `w` answers the task with `result` and
becomes `w'`.  It reads the files `read` in this order, and its calls nest `depth` deep below the
first. -/
inductive Run (files : FileView) :
    Workspace → Task → List FileName → Nat → Workspace → Except Failure ProgramId → Prop
  | known {w : Workspace} {file : String} {id : ProgramId}
      (hknown : w.get? file = some id) :
      Run files w (.file file) [] 0 w (.ok id)
  | lost {w : Workspace} {file : String} {fault : FileFault}
      (hunknown : w.get? file = none)
      (hresolve : files.resolve (Path.join w.base file) = .error fault) :
      Run files w (.file file) [] 0 w (.error (.io (Path.join w.base file) fault))
  | renamed {w : Workspace} {file : String} {name : FileName} {id : ProgramId}
      (hunknown : w.get? file = none)
      (hresolve : files.resolve (Path.join w.base file) = .ok name)
      (hregistered : w.byPath.lookup name = some id) :
      Run files w (.file file) [] 0 { w with byFile := w.byFile.put file id } (.ok id)
  | refused {w : Workspace} {file : String} {name : FileName} {failure : Failure}
      (hfresh : Fresh files w file name)
      (hread : w.readProgram files file name = .error failure) :
      Run files w (.file file) [name] 0 w (.error failure)
  | loaded {w w₁ w₂ : Workspace} {file source : String} {name : FileName} {program : Program}
      {read : List FileName} {depth : Nat} {id : ProgramId}
      (hfresh : Fresh files w file name)
      (hread : w.readProgram files file name = .ok (program, source))
      (hfollow : Run files (w.add file name program)
        (.imports program.file w.programs.length (importsOf program)) read depth w₁ (.ok id))
      (hlink : w₁.linkAt w.programs.length source = .ok w₂) :
      Run files w (.file file) (name :: read) depth w₂ (.ok w.programs.length)
  | unlinked {w w₁ : Workspace} {file source : String} {name : FileName} {program : Program}
      {read : List FileName} {depth : Nat} {id : ProgramId} {failure : Failure}
      (hfresh : Fresh files w file name)
      (hread : w.readProgram files file name = .ok (program, source))
      (hfollow : Run files (w.add file name program)
        (.imports program.file w.programs.length (importsOf program)) read depth w₁ (.ok id))
      (hlink : w₁.linkAt w.programs.length source = .error failure) :
      Run files w (.file file) (name :: read) depth (w₁.evictFrom w.programs.length)
        (.error failure)
  | broken {w w₁ : Workspace} {file source : String} {name : FileName} {program : Program}
      {read : List FileName} {depth : Nat} {failure : Failure}
      (hfresh : Fresh files w file name)
      (hread : w.readProgram files file name = .ok (program, source))
      (hfollow : Run files (w.add file name program)
        (.imports program.file w.programs.length (importsOf program)) read depth w₁
        (.error failure)) :
      Run files w (.file file) (name :: read) depth (w₁.evictFrom w.programs.length)
        (.error failure)
  | followed {w : Workspace} {importer : String} {id : ProgramId} :
      Run files w (.imports importer id []) [] 0 w (.ok id)
  | bound {w w₁ w₂ : Workspace} {importer file : String} {id target : ProgramId} {index : Nat}
      {left : List (String × Nat)} {read₁ read₂ : List FileName} {depth₁ depth₂ : Nat}
      {result : Except Failure ProgramId}
      (hfirst : Run files w (.file file) read₁ depth₁ w₁ (.ok target))
      (hrest : Run files (w₁.bindImport id index target) (.imports importer id left)
        read₂ depth₂ w₂ result) :
      Run files w (.imports importer id ((file, index) :: left)) (read₁ ++ read₂)
        (max (depth₁ + 1) depth₂) w₂ result
  | stopped {w w₁ : Workspace} {importer file : String} {id : ProgramId} {index : Nat}
      {left : List (String × Nat)} {read : List FileName} {depth : Nat} {cause : Failure}
      (hfirst : Run files w (.file file) read depth w₁ (.error cause)) :
      Run files w (.imports importer id ((file, index) :: left)) read (depth + 1) w₁
        (.error (.imported file importer cause))

/-! ## What a run registers -/

theorem byPath_add {file : String} (hfresh : Fresh files w file name) (program : Program) :
    (w.add file name program).byPath = w.byPath ++ [(name, w.programs.length)] :=
  Assoc.put_eq_append_of_lookup_eq_none hfresh.unregistered _

@[simp] theorem byPath_bindImport (w : Workspace) (id index : Nat) (target : ProgramId) :
    (w.bindImport id index target).byPath = w.byPath := rfl

theorem Run.setup_eq {task : Task} (h : Run files w task read depth w' result) :
    w'.setup = w.setup := by
  induction h with
  | known | lost | renamed | refused | followed => rfl
  | loaded _ _ _ hlink ih =>
    obtain ⟨programs, rfl, -, -⟩ := linkAt_eq_ok hlink
    exact ih
  | unlinked _ _ _ _ ih | broken _ _ _ ih | stopped _ ih => exact ih
  | bound _ _ ihfirst ihrest => exact ihrest.trans ihfirst

/-- A run that succeeds registers the files that it reads, and takes none back. -/
theorem Run.paths_eq
    {task : Task} (h : Run files w task read depth w' result) (hresult : result = .ok id) :
    w'.byPath.map (·.1) = w.byPath.map (·.1) ++ read := by
  induction h generalizing id with
  | known | renamed | followed => simp
  | lost | refused | unlinked | broken | stopped => cases hresult
  | loaded hfresh _ _ hlink ih =>
    obtain ⟨programs, rfl, -, -⟩ := linkAt_eq_ok hlink
    rw [ih rfl, byPath_add hfresh]
    simp
  | bound _ _ ihfirst ihrest =>
    rw [ihrest hresult, byPath_bindImport, ihfirst rfl, List.append_assoc]

theorem Run.unread_le {task : Task} (h : Run files w task read depth w' (.ok id)) :
    w'.unread files ≤ w.unread files := by
  apply unseen_le_of_subset
  rw [h.paths_eq rfl]
  exact List.subset_append_left _ _

theorem unread_add_lt
    {file : String} (hfresh : Fresh files w file name)
    (hread : w.readProgram files file name = .ok (program, source)) :
    (w.add file name program).unread files < w.unread files := by
  have hname : name ∈ files.names := by
    simp only [readProgram, bind_eq_ok_iff, mapError_eq_ok_iff] at hread
    obtain ⟨-, -, text, htext, -⟩ := hread
    exact files.mem_names htext
  have hnew : name ∉ w.byPath.map (·.1) := by
    intro hmem
    obtain ⟨entry, hentry, rfl⟩ := List.mem_map.1 hmem
    have := List.lookup_eq_none_iff.1 hfresh.unregistered entry hentry
    simp at this
  calc (w.add file name program).unread files
      ≤ unseen id files.names (id name :: w.byPath.map (·.1)) := by
        apply unseen_le_of_subset
        rw [byPath_add hfresh]
        simp
    _ < w.unread files := unseen_cons_lt id hname hnew

/-! ## The run of a call -/

/-- Where every call with fewer than `bound` files to read has a run, following imports has one. -/
theorem exists_run_followImports
    (hcalls : ∀ (w : Workspace) (file : String), w.unread files < bound →
      ∃ read depth, Run files w (.file file) read depth (w.analyse files file).1
        (w.analyse files file).2)
    (hanalyse : ∀ (w : Workspace) (file : String), w.unread files < bound →
      analyse w file = w.analyse files file)
    (importer : String) (id : ProgramId) (left : List (String × Nat)) (w : Workspace)
    (hw : w.unread files < bound) :
    ∃ read depth, Run files w (.imports importer id left) read depth
      (followImports analyse importer id w left).1
      ((followImports analyse importer id w left).2.map fun _ => id) := by
  induction left generalizing w with
  | nil => exact ⟨[], 0, .followed⟩
  | cons item left ih =>
    obtain ⟨file, index⟩ := item
    obtain ⟨read, depth, hrun⟩ := hcalls w file hw
    rw [← hanalyse w file hw] at hrun
    simp only [followImports]
    generalize hcall : analyse w file = call at hrun ⊢
    obtain ⟨w₁, result⟩ := call
    cases result with
    | error cause => exact ⟨read, depth + 1, .stopped hrun⟩
    | ok target =>
      have hw₁ : (w₁.bindImport id index target).unread files < bound :=
        Nat.lt_of_le_of_lt hrun.unread_le hw
      obtain ⟨read', depth', hrest⟩ := ih _ hw₁
      exact ⟨read ++ read', max (depth + 1) depth', .bound hrun hrest⟩

/-- Where loading a file has come to, once its imports are followed. -/
theorem load_eq_of_readProgram
    {file : String} (hread : w.readProgram files file name = .ok (program, source))
    (analyse : Workspace → String → Workspace × Except Failure ProgramId) :
    w.load files analyse file name =
      match followImports analyse program.file w.programs.length (w.add file name program)
        (importsOf program) with
      | (w₁, .error failure) => (w₁.evictFrom w.programs.length, .error failure)
      | (w₁, .ok ()) =>
        match w₁.linkAt w.programs.length source with
        | .error failure => (w₁.evictFrom w.programs.length, .error failure)
        | .ok w₂ => (w₂, .ok w.programs.length) := by
  simp only [load, hread, link]
  generalize followImports analyse program.file w.programs.length
    (w.add file name program) (importsOf program) = followed
  obtain ⟨w₁, result⟩ := followed
  cases result with
  | error failure => rfl
  | ok _ => cases hlink : w₁.linkAt w.programs.length source <;> simp [hlink]

/-- Loading a file has a run when every call for one of its imports has. -/
theorem exists_run_load
    {file : String} (hfresh : Fresh files w file name)
    (hcalls : ∀ (inner : Workspace) (item : String), inner.unread files < w.unread files →
      ∃ read depth, Run files inner (.file item) read depth (inner.analyse files item).1
        (inner.analyse files item).2)
    (hanalyse : ∀ (inner : Workspace) (item : String), inner.unread files < w.unread files →
      analyse inner item = inner.analyse files item) :
    ∃ read depth, Run files w (.file file) read depth (w.load files analyse file name).1
      (w.load files analyse file name).2 := by
  cases hread : w.readProgram files file name with
  | error failure =>
    have hload : w.load files analyse file name = (w, .error failure) := by simp [load, hread]
    rw [hload]
    exact ⟨[name], 0, .refused hfresh hread⟩
  | ok parsed =>
    obtain ⟨program, source⟩ := parsed
    obtain ⟨read, depth, hfollow⟩ := exists_run_followImports hcalls hanalyse program.file
      w.programs.length (importsOf program) (w.add file name program)
      (unread_add_lt hfresh hread)
    refine ⟨name :: read, depth, ?_⟩
    rw [load_eq_of_readProgram hread]
    generalize followImports analyse program.file w.programs.length
      (w.add file name program) (importsOf program) = followed at hfollow ⊢
    obtain ⟨w₁, result⟩ := followed
    cases result with
    | error failure => exact .broken hfresh hread hfollow
    | ok _ =>
      cases hlink : w₁.linkAt w.programs.length source with
      | error failure =>
        simp only [hlink]
        exact .unlinked hfresh hread hfollow hlink
      | ok w₂ =>
        simp only [hlink]
        exact .loaded hfresh hread hfollow hlink

/-- Every call has a run.  The count of unread files, which `analyse` compares before it follows
an import, is smaller at every import. -/
theorem exists_run_analyse (files : FileView) (w : Workspace) (file : String) :
    ∃ read depth, Run files w (.file file) read depth (w.analyse files file).1
      (w.analyse files file).2 := by
  induction hbound : w.unread files using Nat.strongRecOn generalizing w file with
  | ind bound ih =>
    subst hbound
    have hcalls : ∀ (inner : Workspace) (item : String), inner.unread files < w.unread files →
        ∃ read depth, Run files inner (.file item) read depth (inner.analyse files item).1
          (inner.analyse files item).2 :=
      fun inner item hlt => ih _ hlt inner item rfl
    rw [analyse]
    cases hget : w.get? file with
    | some id =>
      simp only [analyseWith, hget]
      exact ⟨[], 0, .known hget⟩
    | none =>
      cases hresolve : files.resolve (Path.join w.base file) with
      | error fault =>
        simp only [analyseWith, hget, hresolve]
        exact ⟨[], 0, .lost hget hresolve⟩
      | ok name =>
        cases hpath : w.byPath.lookup name with
        | some id =>
          simp only [analyseWith, hget, hresolve, hpath]
          exact ⟨[], 0, .renamed hget hresolve hpath⟩
        | none =>
          simp only [analyseWith, hget, hresolve, hpath]
          exact exists_run_load ⟨hget, hresolve, hpath⟩ hcalls
            fun inner item hlt => if_pos hlt

/-! ## The answer of a run -/

/-- Following imports takes the same calls whether or not they are guarded by the count of unread
files. -/
theorem followImports_eq_of_unread_lt
    (hanalyse : ∀ (w : Workspace) (file : String), w.unread files < bound →
      analyse w file = w.analyse files file)
    (importer : String) (id : ProgramId) (left : List (String × Nat)) (w : Workspace)
    (hw : w.unread files < bound) :
    followImports analyse importer id w left =
      followImports (Workspace.analyse files) importer id w left := by
  induction left generalizing w with
  | nil => rfl
  | cons item left ih =>
    obtain ⟨file, index⟩ := item
    obtain ⟨read, depth, hrun⟩ := exists_run_analyse files w file
    simp only [followImports, hanalyse w file hw]
    generalize w.analyse files file = call at hrun ⊢
    obtain ⟨w₁, result⟩ := call
    cases result with
    | error cause => rfl
    | ok target => exact ih _ (Nat.lt_of_le_of_lt hrun.unread_le hw)

/-- An analysis calls itself for every import: no import is turned away for the count of unread
files. -/
theorem analyse_eq_analyseWith (files : FileView) (w : Workspace) (file : String) :
    w.analyse files file = w.analyseWith files (Workspace.analyse files) file := by
  rw [analyse]
  cases hget : w.get? file with
  | some id => simp only [analyseWith, hget]
  | none =>
    cases hresolve : files.resolve (Path.join w.base file) with
    | error fault => simp only [analyseWith, hget, hresolve]
    | ok name =>
      cases hpath : w.byPath.lookup name with
      | some id => simp only [analyseWith, hget, hresolve, hpath]
      | none =>
        simp only [analyseWith, hget, hresolve, hpath]
        cases hread : w.readProgram files file name with
        | error failure => simp only [load, hread]
        | ok parsed =>
          obtain ⟨program, source⟩ := parsed
          rw [load_eq_of_readProgram hread, load_eq_of_readProgram hread,
            followImports_eq_of_unread_lt (fun inner item hlt => if_pos hlt) _ _ _ _
              (unread_add_lt ⟨hget, hresolve, hpath⟩ hread)]

/-- The answer to a task. -/
def Task.answer (files : FileView) (w : Workspace) :
    Task → Workspace × Except Failure ProgramId
  | file item => w.analyse files item
  | imports importer id left =>
    let (w', result) := followImports (Workspace.analyse files) importer id w left
    (w', result.map fun _ => id)

theorem analyse_eq_load {file : String} (hfresh : Fresh files w file name) :
    w.analyse files file = w.load files (Workspace.analyse files) file name := by
  rw [analyse_eq_analyseWith]
  simp only [analyseWith, hfresh.unknown, hfresh.resolves, hfresh.unregistered]

theorem followImports_eq_of_answer
    {importer : String} {left : List (String × Nat)}
    (h : (Task.imports importer id left).answer files w = (w', result)) :
    followImports (Workspace.analyse files) importer id w left =
      (w', result.map fun _ => ()) := by
  simp only [Task.answer] at h
  generalize followImports (Workspace.analyse files) importer id w left = followed at h ⊢
  obtain ⟨w₁, outcome⟩ := followed
  cases outcome with
  | error failure | ok _ =>
    cases h
    rfl

theorem Run.answer_eq {task : Task} (h : Run files w task read depth w' result) :
    task.answer files w = (w', result) := by
  induction h with
  | known hknown => simp only [Task.answer, analyse_eq_analyseWith, analyseWith, hknown]
  | lost hunknown hresolve =>
    simp only [Task.answer, analyse_eq_analyseWith, analyseWith, hunknown, hresolve]
  | renamed hunknown hresolve hregistered =>
    simp only [Task.answer, analyse_eq_analyseWith, analyseWith, hunknown, hresolve, hregistered]
  | refused hfresh hread => simp only [Task.answer, analyse_eq_load hfresh, load, hread]
  | loaded hfresh hread _ hlink ih | unlinked hfresh hread _ hlink ih =>
    simp only [Task.answer, analyse_eq_load hfresh, load_eq_of_readProgram hread,
      followImports_eq_of_answer ih, Except.map, hlink]
  | broken hfresh hread _ ih =>
    simp only [Task.answer, analyse_eq_load hfresh, load_eq_of_readProgram hread,
      followImports_eq_of_answer ih, Except.map]
  | followed => rfl
  | bound _ _ ihfirst ihrest =>
    simp only [Task.answer, followImports] at ihfirst ihrest ⊢
    rw [ihfirst]
    exact ihrest
  | stopped _ ih =>
    simp only [Task.answer, followImports] at ih ⊢
    rw [ih]
    rfl

end Idl.Workspace

import Idl.Proofs.Workspace.Descriptors
import Idl.Proofs.Workspace.Ranges

/-!
# Trails of imports

A failure in an imported file is wrapped once for every import on the way to it.  The main statement
is that what is unwrapped again is a path of imports: each file is imported, by this very name, by
the next, and none comes twice.
-/

namespace Idl

open List

theorem Failure.innermost_ne_imported (failure : Failure) (item importer : String)
    (cause : Failure) :
    failure.innermost.1 ≠ .imported item importer cause := by
  fun_induction innermost failure with
  | case1 file importer cause inner trail hinner ih => simpa [hinner] using ih
  | case2 failure hother => exact hother item importer cause

namespace Workspace

variable {files : FileView} {w w' : Workspace} {task : Task} {read : List FileName} {depth : Nat}
  {result : Except Failure ProgramId} {file : String} {failure : Failure} {chain : List String}

theorem Imports.of_setup
    {item : String} (h : Imports files w file item) (hsetup : w'.setup = w.setup) :
    Imports files w' file item := by
  obtain ⟨name, program, hreads, hitem⟩ := h
  exact ⟨name, program, hreads.of_setup hsetup, hitem⟩

/-- The failure is unwrapped to a path: `chain` leads from the file that it arose in to the file
that was asked for, each imported by the next.  If a text was refused, it is that of the first. -/
structure Trails (files : FileView) (w : Workspace) (chain : List String) (failure : Failure) :
    Prop where
  trail : failure.innermost.2 = chain.zip chain.tail
  imports : ∀ step ∈ failure.innermost.2, Imports files w step.2 step.1
  nodup : chain.Nodup
  text : ∀ diagnostics reported source, failure.innermost.1 = .parse diagnostics reported source →
    chain.head? = some reported ∧ ∃ name,
      files.resolve (Path.join w.base reported) = .ok name ∧ files.readName name = .ok source

/-- The trail of a failure among files that the workspace does not know. -/
structure TrailsAnew (files : FileView) (w : Workspace) (chain : List String) (failure : Failure) :
    Prop extends Trails files w chain failure where
  unknown : ∀ item ∈ chain, w.get? item = none

theorem TrailsAnew.back
    (h : TrailsAnew files w' chain failure) (hsetup : w'.setup = w.setup)
    (hnames : ∀ {file id}, w.get? file = some id → w'.get? file = some id) :
    TrailsAnew files w chain failure where
  trail := h.trail
  imports step hstep := (h.imports step hstep).of_setup hsetup.symm
  nodup := h.nodup
  text := base_eq_of_setup hsetup ▸ h.text
  unknown item hitem := by
    cases hknown : w.get? item with
    | none => rfl
    | some id => exact (hnames hknown).symm.trans (h.unknown item hitem)

theorem Stops.trailsAnew
    {name : FileName} (h : Stops files file name failure) (hfresh : Fresh files w file name) :
    TrailsAnew files w [file] failure := by
  refine ⟨⟨?_, ?_, nodup_singleton _, ?_⟩, forall_mem_singleton.2 hfresh.unknown⟩
  · rw [h.innermost]
    rfl
  · rw [h.innermost]
    exact forall_mem_nil _
  · intro diagnostics reported source hcause
    rw [h.innermost] at hcause
    obtain ⟨rfl, hsource, -⟩ := h.text diagnostics reported source hcause
    exact ⟨rfl, name, hfresh.resolves, hsource⟩

theorem TrailsAnew.imported
    {before : List String} {item : String} (h : TrailsAnew files w (before ++ [item]) failure)
    (hnew : file ∉ before ++ [item]) (hunknown : w.get? file = none)
    (himports : Imports files w file item) :
    TrailsAnew files w (before ++ [item] ++ [file]) (.imported item file failure) where
  trail := by
    rw [append_assoc, singleton_append, zip_tail_concat, ← h.trail]
    rfl
  imports := forall_mem_append.2 ⟨h.imports, forall_mem_singleton.2 himports⟩
  nodup := nodup_append_comm.1 (nodup_cons.2 ⟨hnew, h.nodup⟩)
  text diagnostics reported source hcause := by
    obtain ⟨hhead, hsource⟩ := h.text diagnostics reported source hcause
    rw [head?_append, hhead]
    exact ⟨rfl, hsource⟩
  unknown := forall_mem_append.2 ⟨h.unknown, forall_mem_singleton.2 hunknown⟩

/-- What a failure of the task tells.  Of the imports of a file it tells which failed. -/
def Task.Fails (files : FileView) (w : Workspace) (failure : Failure) : Task → Prop
  | .file file => ∃ before, TrailsAnew files w (before ++ [file]) failure
  | .imports importer _ left => ∃ item ∈ left.map (·.1), ∃ before cause,
      failure = .imported item importer cause ∧ TrailsAnew files w (before ++ [item]) cause

theorem Run.fails
    (h : Run files w task read depth w' result) (hw : Indexed w)
    (hresult : result = .error failure) :
    task.Fails files w failure := by
  induction h generalizing failure with
  | known | renamed | loaded | followed => cases hresult
  | lost hunknown hresolve =>
    obtain rfl := Except.error.inj hresult
    exact ⟨[], ⟨rfl, nofun, nodup_singleton _, nofun⟩, forall_mem_singleton.2 hunknown⟩
  | refused hfresh hread =>
    obtain rfl := Except.error.inj hresult
    exact ⟨[], ((ends_readProgram _ _ _).of_error hread).trailsAnew hfresh⟩
  | unlinked hfresh hread hfollow hlink =>
    obtain rfl := Except.error.inj hresult
    exact ⟨[], (hfollow.stops_of_linkAt hread hlink).trailsAnew hfresh⟩
  | @broken w w₁ file source name program _ _ _ hfresh hread hfollow ih =>
    have hfile := file_of_readProgram hread
    obtain ⟨item, hitem, before, cause, rfl, hcause⟩ := ih (hw.add hfresh hfile) hresult
    have hadd := extends_add hfresh program
    have hknown : (w.add file name program).get? file = some w.programs.length :=
      (Assoc.lookup_put_eq_some_iff hfresh.unknown).2 (.inr ⟨rfl, rfl⟩)
    have hnew : file ∉ before ++ [item] := fun hmem =>
      Option.some_ne_none _ (hknown.symm.trans (hcause.unknown file hmem))
    refine ⟨before ++ [item], ?_⟩
    rw [hfile]
    refine (hcause.back hadd.setup hadd.names).imported hnew hfresh.unknown ?_
    obtain ⟨entry, hentry, rfl⟩ := mem_map.1 hitem
    exact imports_of_mem_importsOf (hfresh.reads hread) hentry
  | bound hfirst _ _ ihrest =>
    obtain ⟨hw₁, hextends⟩ := hfirst.indexed_extends hw
    obtain ⟨item, hitem, before, cause, rfl, hcause⟩ := ihrest (hw₁.bindImport ..) hresult
    exact ⟨item, mem_cons_of_mem _ hitem, before, cause, rfl,
      hcause.back hextends.setup hextends.names⟩
  | stopped hfirst ih =>
    obtain rfl := Except.error.inj hresult
    obtain ⟨before, hcause⟩ := ih hw rfl
    exact ⟨_, mem_cons_self, before, _, rfl, hcause⟩

/-- A failure of an analysis is not an import itself when it is unwrapped, and the imports that led
to it make a path to the file that was asked for, without a file twice. -/
theorem error_trail_is_import_path
    (base : String) (config : ParseConfig) (settings : List Setting)
    (actions : List (FileView × Action)) (files : FileView) (file : String) (failure : Failure)
    (h : (((new base config settings).actAll actions).analyse files file).2 = .error failure) :
    (∀ item importer cause, failure.innermost.1 ≠ .imported item importer cause) ∧
      ∃ before, Trails files ((new base config settings).actAll actions) (before ++ [file])
        failure := by
  have hw : Indexed ((new base config settings).actAll actions) :=
    (steady_clear_actAll base config settings actions).toIndexed.of_clear
  obtain ⟨read, depth, hrun⟩ :=
    exists_run_analyse files ((new base config settings).actAll actions) file
  obtain ⟨before, htrails⟩ := hrun.fails hw h
  exact ⟨failure.innermost_ne_imported, before, htrails.toTrails⟩

/-- The imports that led to a failure. -/
def trailOf : Except Failure ProgramId → List (String × String)
  | .ok _ => []
  | .error failure => failure.innermost.2

theorem error_trail_is_import_path_accented :
    ∃ failure before, ((new "" ⟨false⟩ []).analyse accentedCycle "a.wproto").2 = .error failure ∧
      failure.innermost.2 = [("b.wproto", "a.wproto")] ∧
      Trails accentedCycle (new "" ⟨false⟩ []) (before ++ ["a.wproto"]) failure := by
  have htrail : trailOf ((new "" ⟨false⟩ []).analyse accentedCycle "a.wproto").2 =
      [("b.wproto", "a.wproto")] := by decide +kernel
  cases hresult : ((new "" ⟨false⟩ []).analyse accentedCycle "a.wproto").2 with
  | ok id =>
    rw [hresult] at htrail
    cases htrail
  | error failure =>
    rw [hresult] at htrail
    obtain ⟨-, before, htrails⟩ :=
      error_trail_is_import_path "" ⟨false⟩ [] [] accentedCycle "a.wproto" failure hresult
    exact ⟨failure, before, rfl, htrail, htrails⟩

end Workspace

end Idl

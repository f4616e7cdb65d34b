import Idl.Descriptor.Describe
import Idl.Proofs.Workspace.Requests

/-!
# Kept descriptors

A workspace keeps the descriptors that it was asked for.  No analysis looks at them: a run on a
workspace that keeps none reads the same files, gives the same answer, and ends in the same
workspace but for the descriptors.  So what holds of all sequences of requests holds, with the
descriptors left out, of all requests that are mixed with questions for descriptors.
-/

namespace Idl

open List

variable {result : Except Failure ProgramId} {w w' : Workspace} {read : List FileName}
  {files : FileView} {id : ProgramId} {depth : Nat}

def Program.clear (program : Program) : Program := { program with descriptor := none }

namespace Arena

def clear (arena : Arena) : Arena := arena.map (·.clear)

@[simp] theorem length_clear (arena : Arena) : arena.clear.length = arena.length :=
  length_map ..

theorem getElem?_clear (arena : Arena) (id : ProgramId) :
    arena.clear[id]? = arena[id]?.map (·.clear) :=
  getElem?_map ..

theorem clear_set (arena : Arena) (id : ProgramId) (program : Program) :
    clear (arena.set id program) = arena.clear.set id program.clear :=
  map_set ..

/-! ## Linking does not look at descriptors -/

theorem imported?_clear (arena : Arena) (item : Import) :
    arena.clear.imported? item =
      (arena.imported? item).map fun found => (found.1, found.2.clear) := by
  simp only [imported?, Option.bind_eq_bind, Option.pure_def, getElem?_clear]
  cases item.target with
  | none => rfl
  | some id => cases h : arena[id]? <;> simp [h]

theorem find?_package_clear (arena : Arena) (ids : List ProgramId) (package : String) :
    (ids.filterMap (arena.clear[·]?)).find? (·.package != package) =
      ((ids.filterMap (arena[·]?)).find? (·.package != package)).map (·.clear) := by
  simp only [getElem?_clear, ← map_filterMap, find?_map]
  rfl

theorem linkFrom_clear
    (arena : Arena) (references : Assoc String (List ProgramId)) (imports : List Import) :
    arena.clear.linkFrom references imports = arena.linkFrom references imports := by
  induction imports generalizing references with
  | nil => rfl
  | cons item imports ih =>
    rw [linkFrom, linkFrom, imported?_clear]
    cases arena.imported? item with
    | none => rfl
    | some found =>
      obtain ⟨id, program⟩ := found
      simp only [Option.map_some, find?_package_clear, ih]
      have hpackage : program.clear.package = program.package := rfl
      have hfile : program.clear.file = program.file := rfl
      rw [hpackage, hfile]
      generalize List.find? _ _ = other
      cases other <;> rfl

end Arena

namespace Program

theorem resolve?_clear (arena : Arena) (id : ProgramId) (program : Program) :
    program.clear.resolve? arena.clear id = program.resolve? arena id := by
  funext type
  simp only [resolve?, Arena.getElem?_clear, Option.bind_map]
  rfl

theorem resolveStub?_clear (arena : Arena) (id : ProgramId) (program : Program) :
    program.clear.resolveStub? arena.clear id = program.resolveStub? arena id := by
  funext name
  simp only [resolveStub?, Arena.getElem?_clear, Option.bind_map]
  rfl

theorem linkImports_clear (arena : Arena) (program : Program) :
    program.clear.linkImports arena.clear = (program.linkImports arena).map (·.clear) := by
  have hlink : program.clear.link arena.clear = program.link arena :=
    Arena.linkFrom_clear arena [] program.schema.imports
  simp only [linkImports, hlink]
  cases program.link arena <;> rfl

theorem bindReferences_clear (arena : Arena) (id : ProgramId) (program : Program) :
    program.clear.bindReferences arena.clear id =
      ((program.bindReferences arena id).1.clear, (program.bindReferences arena id).2) := by
  simp only [bindReferences, resolve?_clear, resolveStub?_clear]
  have hschema : program.clear.schema = program.schema := rfl
  rw [hschema]
  split <;> rfl

end Program

namespace Workspace

def clear (w : Workspace) : Workspace := { w with programs := w.programs.clear }

variable {files : FileView} {w w' : Workspace}

theorem linkAt_clear (w : Workspace) (id : ProgramId) (source : String) :
    w.clear.linkAt id source = (w.linkAt id source).map (·.clear) := by
  have hprogram : w.clear.program? id = (w.program? id).map (·.clear) :=
    Arena.getElem?_clear w.programs id
  rw [linkAt, linkAt, hprogram]
  cases w.program? id with
  | none => rfl
  | some program =>
    have hlink : program.clear.linkImports w.clear.programs =
        (program.linkImports w.programs).map (·.clear) := program.linkImports_clear w.programs
    simp only [Option.map_some, linkProgram, hlink]
    cases program.linkImports w.programs with
    | error fault => rfl
    | ok linked =>
      have hset : w.clear.programs.set id linked.clear = Arena.clear (w.programs.set id linked) :=
        (Arena.clear_set ..).symm
      simp only [Except.map, Except.mapError, bind, Except.bind, hset,
        Program.bindReferences_clear]
      generalize linked.bindReferences (w.programs.set id linked) id = bound
      obtain ⟨bound, fault⟩ := bound
      cases fault with
      | some fault => rfl
      | none =>
        simp only [← Arena.clear_set]
        rfl

/-! ## Runs -/

theorem clear_of_readProgram
    {file source : String} {name : FileName} {program : Program}
    (h : w.readProgram files file name = .ok (program, source)) : program.clear = program := by
  obtain ⟨dialect, -, -, hparse⟩ := readProgram_eq_ok_iff.1 h
  obtain ⟨schema, -, -, hdefinitions⟩ := parse_eq_ok_iff.1 hparse
  rw [checkDefinitions_eq_none hdefinitions]
  rfl

theorem clear_add
    {program : Program} (h : program.clear = program) (w : Workspace) (file : String)
    (name : FileName) : (w.add file name program).clear = w.clear.add file name program := by
  simp only [Workspace.add, clear, Arena.clear, map_append, map_cons, map_nil, h,
    length_map]

theorem clear_bindImport (w : Workspace) (id index : Nat) (target : ProgramId) :
    (w.bindImport id index target).clear = w.clear.bindImport id index target := by
  have hprograms : (w.bindImport id index target).clear.programs =
      (w.clear.bindImport id index target).programs := by
    apply ext_getElem?
    intro i
    simp only [Workspace.bindImport, clear, Arena.clear, getElem?_map, getElem?_modify]
    split <;> cases w.programs[i]? <;> rfl
  simp only [Workspace.bindImport, clear] at hprograms ⊢
  rw [hprograms]

theorem clear_evictFrom (w : Workspace) (id : ProgramId) :
    (w.evictFrom id).clear = w.clear.evictFrom id := by
  simp only [Workspace.evictFrom, clear, Arena.clear, map_take]

theorem Run.clear {task : Task} (h : Run files w task read depth w' result) :
    Run files w.clear task read depth w'.clear result := by
  have hfreshClear : ∀ {w : Workspace} {file name}, Fresh files w file name →
      Fresh files w.clear file name := fun hfresh =>
    ⟨hfresh.unknown, hfresh.resolves, hfresh.unregistered⟩
  have hlength : ∀ w : Workspace, w.clear.programs.length = w.programs.length :=
    fun w => w.programs.length_clear
  induction h with
  | known hknown => exact .known hknown
  | lost hunknown hresolve => exact .lost hunknown hresolve
  | renamed hunknown hresolve hregistered => exact .renamed hunknown hresolve hregistered
  | refused hfresh hread => exact .refused (hfreshClear hfresh) hread
  | @loaded w w₁ w₂ file source name program _ _ _ hfresh hread _ hlink ih =>
    rw [clear_add (clear_of_readProgram hread), ← hlength w] at ih
    rw [← hlength w] at hlink ⊢
    have hlink' := w₁.linkAt_clear w.clear.programs.length source
    rw [hlink] at hlink'
    exact .loaded (hfreshClear hfresh) hread ih hlink'
  | @unlinked w w₁ file source name program _ _ _ _ hfresh hread _ hlink ih =>
    rw [clear_add (clear_of_readProgram hread), ← hlength w] at ih
    rw [← hlength w] at hlink
    have hlink' := w₁.linkAt_clear w.clear.programs.length source
    rw [hlink] at hlink'
    rw [clear_evictFrom, ← hlength w]
    exact .unlinked (hfreshClear hfresh) hread ih hlink'
  | @broken w w₁ file source name program _ _ _ hfresh hread _ ih =>
    rw [clear_add (clear_of_readProgram hread), ← hlength w] at ih
    rw [clear_evictFrom, ← hlength w]
    exact .broken (hfreshClear hfresh) hread ih
  | followed => exact .followed
  | bound _ _ ihfirst ihrest =>
    rw [clear_bindImport] at ihrest
    exact .bound ihfirst ihrest
  | stopped _ ih => exact .stopped ih

theorem analyse_clear (files : FileView) (w : Workspace) (file : String) :
    w.clear.analyse files file = ((w.analyse files file).1.clear, (w.analyse files file).2) := by
  obtain ⟨read, depth, hrun⟩ := exists_run_analyse files w file
  exact hrun.clear.answer_eq

/-! ## Requests mixed with questions -/

/-- What is done with a workspace. -/
inductive Action
  | serve (request : Request)
  /-- Reads files of a suffix in a dialect from now on. -/
  | register (suffix : String) (dialect : Dialect)
  /-- Asks for the descriptor of a program. -/
  | describe (id : ProgramId)
  /-- Asks for the descriptors of a program and of all that it imports. -/
  | describeAll (id : ProgramId)

/-- The workspace after an action.  Descriptors that were asked for are kept. -/
def act (files : FileView) (w : Workspace) : Action → Workspace
  | .serve request => (w.serve files request).1
  | .register suffix dialect => w.register suffix dialect
  | .describe id => { w with programs := w.programs.remember [id] }
  | .describeAll id => { w with programs := w.programs.remember (w.programs.importClosure id) }

/-- The workspace after actions in order, each on files of its own. -/
def actAll (w : Workspace) (actions : List (FileView × Action)) : Workspace :=
  actions.foldl (fun w action => w.act action.1 action.2) w

end Workspace

theorem Arena.getElem?_remember (arena : Arena) (ids : List ProgramId) (id : ProgramId) :
    (arena.remember ids)[id]? = arena[id]?.map fun program =>
      if id ∈ ids then { program with descriptor := some (program.fileDesc arena) }
      else program := by
  rw [Arena.remember, getElem?_mapIdx]

theorem Arena.clear_remember (arena : Arena) (ids : List ProgramId) :
    (arena.remember ids).clear = arena.clear := by
  apply ext_getElem?
  intro id
  rw [Arena.getElem?_clear, Arena.getElem?_clear, Arena.getElem?_remember]
  cases arena[id]? with
  | none => rfl
  | some program =>
    simp only [Option.map_some]
    split <;> rfl

namespace Workspace

section Preservation

variable {P : Workspace → Prop} {w : Workspace} {actions : List (FileView × Action)}

/-- What is kept by analyses, by new dialects and by the keeping of descriptors is kept by all
actions. -/
theorem actAll_preserves
    (hstep : ∀ action ∈ actions, ∀ w file, P w → P (w.analyse action.1 file).1)
    (hregister : ∀ files suffix dialect, (files, .register suffix dialect) ∈ actions →
      ∀ w, P w → P (w.register suffix dialect))
    (hremember : ∀ w ids, P w → P { w with programs := w.programs.remember ids }) (hw : P w) :
    P (w.actAll actions) := by
  induction actions generalizing w with
  | nil => exact hw
  | cons action rest ih =>
    obtain ⟨files, action⟩ := action
    refine ih (fun other hother => hstep other (mem_cons_of_mem _ hother))
      (fun files suffix dialect hmem =>
        hregister files suffix dialect (mem_cons_of_mem _ hmem)) ?_
    cases action with
    | serve request => exact serve_preserves (hstep _ mem_cons_self) request hw
    | register suffix dialect => exact hregister files suffix dialect mem_cons_self w hw
    | describe id => exact hremember w [id] hw
    | describeAll id => exact hremember w (w.programs.importClosure id) hw

/-- What analyses and new dialects keep of workspaces without descriptors, all actions keep of what
a workspace is without its descriptors. -/
theorem clear_actAll_preserves
    (hstep : ∀ action ∈ actions, ∀ w file, P w → P (w.analyse action.1 file).1)
    (hregister : ∀ files suffix dialect, (files, .register suffix dialect) ∈ actions →
      ∀ w, P w → P (w.register suffix dialect)) (hw : P w.clear) : P (w.actAll actions).clear := by
  refine actAll_preserves (P := fun w => P w.clear) ?_ ?_ ?_ hw
  · intro action haction w file hw
    have hanalyse := hstep action haction w.clear file hw
    rwa [analyse_clear] at hanalyse
  · intro files suffix dialect hmem w hw
    exact hregister files suffix dialect hmem w.clear hw
  · intro w ids hw
    have hclear : clear { w with programs := w.programs.remember ids } = w.clear := by
      simp only [clear, Arena.clear_remember]
    exact hclear ▸ hw

end Preservation

/-! ## What is kept -/

/-- The descriptor that is kept of a program. -/
def kept? (w : Workspace) (id : ProgramId) : Option FileDesc :=
  (w.program? id).bind (·.descriptor)

theorem kept?_linkAt {source : String} (h : w.linkAt id source = .ok w') (i : ProgramId) :
    w'.kept? i = w.kept? i := by
  obtain ⟨programs, heq, hlength, hother⟩ := linkAt_eq_ok h
  by_cases hi : i = id
  · subst hi
    cases hprogram : w.program? i with
    | none =>
      have hge : programs.length ≤ i := hlength ▸ List.getElem?_eq_none_iff.1 hprogram
      rw [kept?, kept?, hprogram, heq, program?, List.getElem?_eq_none_iff.2 hge]
    | some program =>
      obtain ⟨linked, hlink, -, hlinked⟩ := linkAt_programs h hprogram
      obtain ⟨references, services, messages, hshape⟩ := linked_eq hlink
      rw [hshape] at hlinked
      rw [kept?, kept?, hprogram, program?, hlinked]
      rfl
  · rw [kept?, kept?, program?, program?, heq, hother i hi]

theorem kept?_evictFrom {w₁ : Workspace} (h : ∀ i, w₁.kept? i = w.kept? i) (i : ProgramId) :
    (w₁.evictFrom w.programs.length).kept? i = w.kept? i := by
  rcases Nat.lt_or_ge i w.programs.length with hlt | hge
  · have htake : (w₁.evictFrom w.programs.length).program? i = w₁.program? i :=
      getElem?_take_of_lt hlt
    rw [kept?, htake]
    exact h i
  · have htake : (w₁.evictFrom w.programs.length).program? i = none :=
      getElem?_take_eq_none hge
    have hnone : w.program? i = none := getElem?_eq_none hge
    rw [kept?, kept?, htake, hnone]

theorem Run.kept?_eq {task : Task} (h : Run files w task read depth w' result) (i : ProgramId) :
    w'.kept? i = w.kept? i := by
  have hadd : ∀ {w : Workspace} {file source name program},
      w.readProgram files file name = .ok (program, source) →
      ∀ i, (w.add file name program).kept? i = w.kept? i := by
    intro w file source name program hread i
    have hnone : program.descriptor = none :=
      congrArg (·.descriptor) (clear_of_readProgram hread).symm
    have happend : (w.add file name program).program? i = (w.programs ++ [program])[i]? := rfl
    rw [kept?, kept?, happend, program?]
    rcases Nat.lt_or_ge i w.programs.length with hlt | hge
    · rw [getElem?_append_left hlt]
    · rw [getElem?_append_right hge, getElem?_singleton, getElem?_eq_none hge]
      split <;> simp [hnone]
  induction h generalizing i with
  | known | lost | renamed | refused => rfl
  | loaded _ hread _ hlink ih => rw [kept?_linkAt hlink, ih, hadd hread]
  | unlinked _ hread _ _ ih => exact kept?_evictFrom (fun i => (ih i).trans (hadd hread i)) i
  | broken _ hread _ ih => exact kept?_evictFrom (fun i => (ih i).trans (hadd hread i)) i
  | followed => rfl
  | @bound _ w₁ _ _ _ id target index _ _ _ _ _ _ _ _ ihfirst ihrest =>
    have hbind : (w₁.bindImport id index target).kept? i = w₁.kept? i := by
      simp only [kept?, program?, Workspace.bindImport, getElem?_modify]
      split <;> cases w₁.programs[i]? <;> rfl
    rw [ihrest, hbind, ihfirst]
  | stopped _ ih => exact ih i

theorem Indexed.of_clear (hw : Indexed w.clear) : Indexed w := by
  have hfiles : w.programs.map (·.file) = w.clear.programs.map (·.file) := by
    rw [clear, Arena.clear, map_map]
    rfl
  exact hw.of_programs hfiles

/-- A program of which a descriptor is kept was there before the analysis, and is as it was. -/
theorem program?_of_kept
    (hw : Indexed w) {file : String} {program : Program} {desc : FileDesc}
    (h : (w.analyse files file).1.program? id = some program)
    (hdesc : program.descriptor = some desc) : w.program? id = some program := by
  obtain ⟨read, depth, hrun⟩ := exists_run_analyse files w file
  have hkept : w.kept? id = some desc := by
    rw [← hrun.kept?_eq id, kept?, h]
    exact hdesc
  obtain ⟨old, hold, -⟩ := Option.bind_eq_some_iff.1 hkept
  have hsame := (hrun.indexed_extends hw).2.program_of_none hold
  rw [hold, ← h]
  exact hsame.symm

end Workspace

end Idl

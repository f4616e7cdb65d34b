import Idl.Proofs.Workspace.Run
import Mathlib.Data.Set.Finite.Lattice
import Mathlib.Data.Set.Finite.List
import Mathlib.Logic.Relation

/-!
# Import closures

The files that an analysis may come to: the file that is asked for, the files that it imports, and
so on.  Imports name files from the base directory, so that the closure is decided by the files and
by the setup of the workspace alone.
-/

namespace Idl.Workspace

open List

variable {program : Program} {w w' : Workspace} {file source item : String} {files : FileView}
  {name : FileName} {index : Nat} {dialect : Dialect}

/-! ## Reading a file -/

/-- The check of definitions fills the scope of a program and leaves the rest as it is. -/
theorem checkDefinitions_eq_none
    {config : ParseConfig} {checked : Program}
    (h : program.checkDefinitions config = (checked, none)) :
    checked = { program with scope := checked.scope } := by
  unfold Program.checkDefinitions at h
  split at h
  · cases h
  · split at h
    · cases h
    · split at h
      · cases h
      · cases h
        rfl

theorem parse_eq_ok_iff :
    w.parse dialect file source = .ok program ↔
      ∃ schema, dialect.parse w.config source = .ok schema ∧
        schema.checkImports = .ok () ∧
        (Program.ofSchema file
          { schema with options := Setting.applyAll w.settings schema.options }).checkDefinitions
            w.config = (program, none) := by
  simp only [parse, bind_eq_ok_iff, mapError_eq_ok_iff]
  constructor
  · rintro ⟨schema, hparse, _, himports, h⟩
    refine ⟨schema, hparse, himports, ?_⟩
    split at h
    next heq => rw [heq, pure_eq_ok_iff.1 h]
    next => cases h
  · rintro ⟨schema, hparse, himports, hdefinitions⟩
    refine ⟨schema, hparse, (), himports, ?_⟩
    rw [hdefinitions]
    rfl

theorem readProgram_eq_ok_iff :
    w.readProgram files file name = .ok (program, source) ↔
      ∃ dialect, w.dialectOf file = .ok dialect ∧ files.readName name = .ok source ∧
        w.parse dialect file source = .ok program := by
  simp only [readProgram, bind_eq_ok_iff, mapError_eq_ok_iff, pure_eq_ok_iff, Prod.mk.injEq]
  constructor
  · rintro ⟨dialect, hdialect, _, hname, _, hparse, rfl, rfl⟩
    exact ⟨dialect, hdialect, hname, hparse⟩
  · rintro ⟨dialect, hdialect, hname, hparse⟩
    exact ⟨dialect, hdialect, source, hname, program, hparse, rfl, rfl⟩

theorem imports_eq_of_parse (h : w.parse dialect file source = .ok program) :
    ∃ schema, dialect.parse w.config source = .ok schema ∧
      program.schema.imports = schema.imports := by
  obtain ⟨schema, hparse, -, hdefinitions⟩ := parse_eq_ok_iff.1 h
  refine ⟨schema, hparse, ?_⟩
  rw [checkDefinitions_eq_none hdefinitions]
  rfl

/-- The file that is asked for as `file` is the one of the name `name`.  It can be found and read,
its suffix is that of a dialect, and its text parses in it; with the settings applied, what it says
passes every check that needs no other file and makes `program`. -/
def Reads (files : FileView) (w : Workspace) (file : String) (name : FileName)
    (program : Program) : Prop :=
  files.resolve (Path.join w.base file) = .ok name ∧
    ∃ dialect source schema, w.dialectOf file = .ok dialect ∧ files.readName name = .ok source ∧
      dialect.parse w.config source = .ok schema ∧ schema.checkImports = .ok () ∧
      (Program.ofSchema file
        { schema with options := Setting.applyAll w.settings schema.options }).checkDefinitions
          w.config = (program, none)

theorem reads_iff :
    Reads files w file name program ↔
      files.resolve (Path.join w.base file) = .ok name ∧
        ∃ source, w.readProgram files file name = .ok (program, source) := by
  refine and_congr_right fun _ => ?_
  constructor
  · rintro ⟨dialect, source, schema, hdialect, hsource, hschema⟩
    exact ⟨source, readProgram_eq_ok_iff.2
      ⟨dialect, hdialect, hsource, parse_eq_ok_iff.2 ⟨schema, hschema⟩⟩⟩
  · rintro ⟨source, hread⟩
    obtain ⟨dialect, hdialect, hsource, hparse⟩ := readProgram_eq_ok_iff.1 hread
    obtain ⟨schema, hschema⟩ := parse_eq_ok_iff.1 hparse
    exact ⟨dialect, source, schema, hdialect, hsource, hschema⟩

theorem Fresh.reads
    (hfresh : Fresh files w file name)
    (hread : w.readProgram files file name = .ok (program, source)) :
    Reads files w file name program :=
  reads_iff.2 ⟨hfresh.resolves, source, hread⟩

theorem Reads.of_setup (h : Reads files w file name program) (hsetup : w'.setup = w.setup) :
    Reads files w' file name program := by
  rw [reads_iff] at h ⊢
  rw [base_eq_of_setup hsetup, readProgram_eq_of_setup hsetup]
  exact h

/-! ## The closure -/

/-- The file that is asked for as `file` imports `item`. -/
def Imports (files : FileView) (w : Workspace) (file item : String) : Prop :=
  ∃ name program, Reads files w file name program ∧
    ∃ entry ∈ program.schema.imports, entry.file.value = item

/-- The file that is asked for as `item` is `file`, or imported by it, or imported by an import of
it, and so on. -/
def InClosure (files : FileView) (w : Workspace) (file item : String) : Prop :=
  Relation.ReflTransGen (Imports files w) file item

/-- The names of the files in the import closure of a file. -/
def closurePaths (files : FileView) (w : Workspace) (file : String) : Set FileName :=
  {name | ∃ item, InClosure files w file item ∧
    files.resolve (Path.join w.base item) = .ok name}

theorem inClosure_refl
    (files : FileView) (w : Workspace) (file : String) : InClosure files w file file :=
  Relation.ReflTransGen.refl

theorem imports_eq_of_setup (h : w'.setup = w.setup) (files : FileView) :
    Imports files w' = Imports files w := by
  funext file item
  refine propext ⟨?_, ?_⟩
  · rintro ⟨name, program, hreads, himport⟩
    exact ⟨name, program, hreads.of_setup h.symm, himport⟩
  · rintro ⟨name, program, hreads, himport⟩
    exact ⟨name, program, hreads.of_setup h, himport⟩

theorem closurePaths_eq_of_setup (h : w'.setup = w.setup) (files : FileView) (file : String) :
    closurePaths files w' file = closurePaths files w file := by
  simp only [closurePaths, InClosure, imports_eq_of_setup h, base_eq_of_setup h]

theorem closurePaths_subset_of_imports (h : Imports files w file item) :
    closurePaths files w item ⊆ closurePaths files w file := by
  rintro name ⟨inner, hinner, hresolve⟩
  exact ⟨inner, Relation.ReflTransGen.head h hinner, hresolve⟩

theorem mem_importsOf_iff :
    (file, index) ∈ importsOf program ↔
      ∃ entry, program.schema.imports[index]? = some entry ∧ entry.file.value = file := by
  constructor
  · intro h
    obtain ⟨⟨entry, i⟩, hentry, heq⟩ := mem_map.1 h
    obtain ⟨rfl, rfl⟩ := Prod.mk.inj heq
    exact ⟨entry, mk_mem_zipIdx_iff_getElem?.1 hentry, rfl⟩
  · rintro ⟨entry, hentry, rfl⟩
    exact mem_map.2 ⟨(entry, index), mk_mem_zipIdx_iff_getElem?.2 hentry, rfl⟩

theorem imports_of_mem_importsOf
    (hreads : Reads files w file name program) (hitem : (item, index) ∈ importsOf program) :
    Imports files w file item := by
  obtain ⟨entry, hentry, hvalue⟩ := mem_importsOf_iff.1 hitem
  exact ⟨name, program, hreads, entry, mem_of_getElem? hentry, hvalue⟩

/-! ## The closure is finite -/

/-- What the file of a name imports, if it is read in the given dialect. -/
def importedBy (files : FileView) (config : ParseConfig) (name : FileName) (dialect : Dialect) :
    List String :=
  match files.readName name with
  | .error _ => []
  | .ok source =>
    match dialect.parse config source with
    | .error _ => []
    | .ok schema => schema.imports.map (·.file.value)

theorem mem_importedBy_of_imports (h : Imports files w file item) :
    ∃ name ∈ files.names, ∃ dialect, item ∈ importedBy files w.config name dialect := by
  obtain ⟨name, program, hreads, entry, hentry, rfl⟩ := h
  obtain ⟨-, source, hread⟩ := reads_iff.1 hreads
  obtain ⟨dialect, -, hname, hparse⟩ := readProgram_eq_ok_iff.1 hread
  obtain ⟨schema, hschema, himports⟩ := imports_eq_of_parse hparse
  refine ⟨name, files.mem_names hname, dialect, ?_⟩
  simp only [importedBy, hname, hschema]
  exact mem_map_of_mem (himports ▸ hentry)

theorem closure_finite (files : FileView) (w : Workspace) (file : String) :
    {item | InClosure files w file item}.Finite := by
  have hdialects : (Set.univ : Set Dialect).Finite :=
    Set.Finite.subset (Set.toFinite {Dialect.native, Dialect.protobuf}) fun dialect _ => by
      cases dialect <;> simp
  have himported : (⋃ name ∈ {name | name ∈ files.names}, ⋃ dialect ∈ (Set.univ : Set Dialect),
      {item | item ∈ importedBy files w.config name dialect}).Finite :=
    (finite_toSet files.names).biUnion fun name _ =>
      hdialects.biUnion fun dialect _ => finite_toSet _
  refine (himported.insert file).subset fun item hitem => ?_
  rcases Relation.ReflTransGen.cases_tail hitem with heq | ⟨importer, -, himport⟩
  · exact Or.inl heq
  · obtain ⟨name, hname, dialect, hmem⟩ := mem_importedBy_of_imports himport
    refine Or.inr (Set.mem_biUnion hname (Set.mem_biUnion (Set.mem_univ dialect) hmem))

theorem closurePaths_finite (files : FileView) (w : Workspace) (file : String) :
    (closurePaths files w file).Finite := by
  let name (item : String) : FileName :=
    (files.resolve (Path.join w.base item)).toOption.getD []
  refine ((closure_finite files w file).image name).subset ?_
  rintro found ⟨item, hitem, hresolve⟩
  refine ⟨item, hitem, ?_⟩
  simp only [name, hresolve]
  rfl

end Idl.Workspace

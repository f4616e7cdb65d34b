import Idl.Proofs.Workspace.Faithful
import Idl.Proofs.Workspace.Requests

/-!
# When an analysis succeeds

On files that stay as they are, whether a file can be analysed is decided by its import closure:
every file in it has to be read, and to be linked to the programs of the closure.  Neither the
cycles in it matter, nor which file of a cycle comes first, nor what was analysed before.
-/

namespace Idl.Workspace

open List

variable {item : String} {name : FileName} {program origin : Program} {id : ProgramId}
variable {files : FileView} {start w w' : Workspace} {root : String} {arena : Arena}
  {place : FileName → ProgramId}

/-! ## Closures in an arena -/

/-- The number of the program that a file stands for, where each file has its place. -/
def placeOf (files : FileView) (w : Workspace) (place : FileName → ProgramId) (item : String) :
    Option ProgramId :=
  (files.resolve (Path.join w.base item)).toOption.map place

/-- The arena holds the programs of the import closure of a file, each at a place of its own and
with its imports bound to the places of their files. -/
structure Layout (files : FileView) (w : Workspace) (root : String) (arena : Arena)
    (place : FileName → ProgramId) : Prop where
  apart : Set.InjOn place (closurePaths files w root)
  holds : ∀ name ∈ closurePaths files w root, ∃ item program, Reads files w item name program ∧
    arena[place name]? = some (program.bindTo (placeOf files w place))

/-- The file can be read, and linked with its imports bound to the programs in the arena. -/
def Passes (files : FileView) (w : Workspace) (arena : Arena) (place : FileName → ProgramId)
    (item : String) : Prop :=
  ∃ name program, Reads files w item name program ∧
    (program.bindTo (placeOf files w place)).Links arena (place name)

theorem Reads.file_eq (h : Reads files w item name program) : program.file = item := by
  obtain ⟨-, source, hread⟩ := reads_iff.1 h
  exact file_of_readProgram hread

theorem Reads.references_eq_none (h : Reads files w item name program) :
    program.references = none := by
  obtain ⟨-, source, hread⟩ := reads_iff.1 h
  exact references_of_readProgram hread

theorem Layout.serves
    (h : Layout files w root arena place) (hitem : InClosure files w root item)
    (hresolve : files.resolve (Path.join w.base item) = .ok name) :
    Serves files w arena (placeOf files w place) item := by
  obtain ⟨other, program, hreads, hprogram⟩ := h.holds name ⟨item, hitem, hresolve⟩
  refine ⟨place name, _, program, name, ?_, hprogram, hresolve, ?_, rfl⟩
  · rw [placeOf, hresolve]
    rfl
  · rw [hreads.file_eq]
    exact hreads

theorem Layout.outline_eq
    (h : Layout files w root arena place) (hw : Uniform files w) {old : Program}
    (hitem : InClosure files w root item) (hreads : Reads files w item name program)
    (hold : arena[place name]? = some old) : old.outline = program.outline := by
  obtain ⟨other, program', hreads', hprogram'⟩ := h.holds name ⟨item, hitem, hreads.1⟩
  cases hprogram'.symm.trans hold
  rw [hw.eq_of_reads hreads' hreads]
  rfl

theorem Layout.of_inClosure
    (h : Layout files w root arena place) (hitem : InClosure files w root item) :
    Layout files w item arena place := by
  have hsubset : closurePaths files w item ⊆ closurePaths files w root := by
    rintro name ⟨inner, hinner, hresolve⟩
    exact ⟨inner, Relation.ReflTransGen.trans hitem hinner, hresolve⟩
  exact ⟨h.apart.mono hsubset, fun name hname => h.holds name (hsubset hname)⟩

/-! ## A closure that passes is analysed -/

/-- The files that a task asks for. -/
def Task.asks : Task → List String
  | file item => [item]
  | imports _ _ left => left.map (·.1)

theorem exists_linkAt_of_links
    (hprogram : w.programs[id]? = some program) (h : program.Links w.programs id)
    (source : String) :
    ∃ w', w.linkAt id source = .ok w' := by
  obtain ⟨linked, hlink, hbind⟩ := h
  have hprogram' : w.program? id = some program := hprogram
  rw [linkAt, hprogram']
  exact ⟨_, linkProgram_eq_ok_iff.2 ⟨linked, hlink, hbind, rfl⟩⟩

theorem inClosure_of_mem_importsOf
    {file : String} (hfile : InClosure files w root file) (hreads : Reads files w file name program)
    {entry : String × Nat} (hentry : entry ∈ importsOf program) :
    InClosure files w root entry.1 :=
  Relation.ReflTransGen.tail hfile (imports_of_mem_importsOf hreads hentry)

/-- A program whose imports are followed is linked in the workspace if it is in the arena: the
programs that it is bound to may still be in progress, but their outlines are complete. -/
theorem links_of_passes
    (hstart : Uniform files start) (hlayout : Layout files start root arena place)
    (hpasses : ∀ item, InClosure files start root item → Passes files start arena place item)
    (hw : Faithful files w) (hsetup : w.setup = start.setup) {file : String}
    (hfile : InClosure files start root file) (hreads : Reads files start file name origin)
    (hprogram : w.programs[id]? = some program) (hforget : program.forget = origin.forget)
    (hpending : Pending w.byFile program []) : program.Links w.programs id := by
  obtain ⟨hbound, hknown⟩ := hpending.eq_bindTo hforget
  obtain ⟨name', origin', hreads', hlinks⟩ := hpasses file hfile
  obtain ⟨rfl, rfl⟩ := hreads.unique hreads'
  have hclosure : ∀ item ∈ origin'.schema.imports,
      InClosure files start root item.file.value := fun item hitem =>
    Relation.ReflTransGen.tail hfile ⟨name', origin', hreads, item, hitem, rfl⟩
  rw [hbound]
  refine links_of_serves hstart origin'.file hreads.references_eq_none ?_ ?_ ?_ ?_ hlinks
  · intro item hitem
    obtain ⟨itemName, itemProgram, hitemReads, -⟩ := hpasses _ (hclosure item hitem)
    exact hlayout.serves (hclosure item hitem) hitemReads.1
  · intro item hitem
    exact (hw.serves (hknown item hitem)).of_setup hsetup.symm
  · intro old hold
    exact hlayout.outline_eq hstart hfile hreads hold
  · intro old hold
    cases hprogram.symm.trans hold
    exact Program.outline_eq_of_forget hforget

/-- Where every file of the closure passes, no run in it fails. -/
theorem Run.ok_of_passes
    {task : Task} {read : List FileName} {depth : Nat} {result : Except Failure ProgramId}
    (hstart : Uniform files start) (hlayout : Layout files start root arena place)
    (hpasses : ∀ item, InClosure files start root item → Passes files start arena place item)
    (h : Run files w task read depth w' result) (hw : Faithful files w)
    (hsetup : w.setup = start.setup)
    (htask : ∀ item ∈ task.asks, InClosure files start root item) : ∃ id, result = .ok id := by
  induction h with
  | known | renamed | loaded | followed => exact ⟨_, rfl⟩
  | lost _ hresolve =>
    obtain ⟨name, program, hreads, -⟩ := hpasses _ (htask _ mem_cons_self)
    rw [base_eq_of_setup hsetup, hreads.1] at hresolve
    cases hresolve
  | refused hfresh hread =>
    obtain ⟨name, program, hreads, -⟩ := hpasses _ (htask _ mem_cons_self)
    obtain ⟨hresolve, source, hread'⟩ := reads_iff.1 (hreads.of_setup hsetup)
    cases hfresh.resolves.symm.trans hresolve
    cases hread.symm.trans hread'
  | @unlinked w w₁ file source name origin _ _ _ _ hfresh hread hfollow hlink ih =>
    have hadd := hw.add hfresh hread
    have hsetup₁ : w₁.setup = start.setup := hfollow.setup_eq.trans hsetup
    obtain ⟨program, hprogram, hforget, hpending⟩ := hfollow.pending hadd.toIndexed rfl rfl
      getElem?_concat_length (pending_importsOf hread _)
    have hlinks : program.Links w₁.programs w.programs.length :=
      links_of_passes hstart hlayout hpasses (hfollow.faithful hadd) hsetup₁
        (htask _ mem_cons_self) ((hfresh.reads hread).of_setup hsetup.symm) hprogram hforget
        hpending
    obtain ⟨w₂, hlinked⟩ := exists_linkAt_of_links hprogram hlinks source
    cases hlinked.symm.trans hlink
  | @broken w w₁ file source name origin _ _ _ hfresh hread hfollow ih =>
    refine ih (hw.add hfresh hread) hsetup fun item hitem => ?_
    obtain ⟨entry, hentry, rfl⟩ := mem_map.1 hitem
    exact inClosure_of_mem_importsOf (htask _ mem_cons_self)
      ((hfresh.reads hread).of_setup hsetup.symm) hentry
  | bound hfirst _ _ ihrest =>
    refine ihrest ((hfirst.faithful hw).bindImport ..) (hfirst.setup_eq.trans hsetup) ?_
    exact fun item hitem => htask item (mem_cons_of_mem _ hitem)
  | stopped _ ih =>
    obtain ⟨id, hid⟩ := ih hw hsetup fun item hitem => by
      rw [mem_singleton.1 hitem]
      exact htask _ mem_cons_self
    cases hid

/-! ## A closure that is analysed passes -/

/-- The workspace is what some requests have made of `start`, on files that stayed as they are. -/
structure Sourced (files : FileView) (start w : Workspace) : Prop where
  setup : w.setup = start.setup
  faithful : Faithful files w
  settled : Settled (fun origin => ∃ name, Reads files start origin.file name origin) w

/-- A workspace that holds nothing, whatever its setup. -/
structure Blank (w : Workspace) : Prop where
  programs : w.programs = []
  byFile : w.byFile = []
  byPath : w.byPath = []

theorem blank_new (base : String) (config : ParseConfig) (settings : List Setting) :
    (new base config settings).Blank :=
  ⟨rfl, rfl, rfl⟩

theorem Blank.sourced (h : start.Blank) (files : FileView) : Sourced files start start := by
  have hindexed : Indexed start := by
    refine ⟨?_, ?_, ?_, ?_, ?_⟩ <;> simp [h.programs, h.byFile, h.byPath]
  refine ⟨rfl, ⟨hindexed, ?_, ?_⟩, ⟨hindexed, ?_⟩⟩
  · simp [get?, h.byFile]
  · simp [h.programs]
  · simp [h.programs]

theorem sourced_new
    (files : FileView) (base : String) (config : ParseConfig) (settings : List Setting) :
    Sourced files (new base config settings) (new base config settings) :=
  (blank_new base config settings).sourced files

theorem Sourced.analyse (hw : Sourced files start w) (file : String) :
    Sourced files start (w.analyse files file).1 := by
  obtain ⟨read, depth, hrun⟩ := exists_run_analyse files w file
  refine ⟨hrun.setup_eq.trans hw.setup, hrun.faithful hw.faithful, ?_⟩
  exact hw.settled.analyse files
    (fun origin name hreads => ⟨name, hreads.of_setup hw.setup.symm⟩) file

theorem Sourced.path_of_done
    (hw : Sourced files start w) (hreads : Reads files start origin.file name origin)
    (hdone : Done w id origin) : w.byPath.lookup name = some id := by
  obtain ⟨references, services, messages, hshape⟩ := hdone.program
  obtain ⟨name', hresolve, hname⟩ :=
    hw.faithful.named (hw.faithful.file_of_program hshape)
  rw [base_eq_of_setup hw.setup] at hresolve
  cases hresolve.symm.trans hreads.1
  exact hname

/-- A file that the workspace knows has a program that is done, and was read from that file. -/
theorem Sourced.done_of_known
    (hw : Sourced files start w) (hstart : Uniform files start) (hknown : w.get? item = some id) :
    ∃ origin name, Reads files start item name { origin with file := item } ∧
      Done w id origin := by
  obtain ⟨name, hresolve, hname⟩ := hw.faithful.named hknown
  rw [base_eq_of_setup hw.setup] at hresolve
  obtain ⟨origin, ⟨name', hreads⟩, hdone⟩ := hw.settled.done id (hw.faithful.lt_of_file hknown)
  obtain rfl := hw.faithful.path_unique (hw.path_of_done hreads hdone) hname
  exact ⟨origin, name', hstart hreads hresolve, hdone⟩

theorem Sourced.known_of_inClosure
    (hw : Sourced files start w) (hstart : Uniform files start) (hroot : (w.get? root).isSome)
    (hitem : InClosure files start root item) : (w.get? item).isSome := by
  induction hitem with
  | refl => exact hroot
  | @tail importer item _ himport ih =>
    obtain ⟨id, hid⟩ := Option.isSome_iff_exists.1 ih
    obtain ⟨origin, name, hreads, hdone⟩ := hw.done_of_known hstart hid
    obtain ⟨name', program, hreads', entry, hentry, rfl⟩ := himport
    obtain ⟨-, rfl⟩ := hreads.unique hreads'
    exact hdone.known entry hentry

theorem Sourced.passes
    (hw : Sourced files start w) (hstart : Uniform files start)
    (hlayout : Layout files start root arena place) (hroot : (w.get? root).isSome)
    (hitem : InClosure files start root item) : Passes files start arena place item := by
  obtain ⟨id, hid⟩ := Option.isSome_iff_exists.1 (hw.known_of_inClosure hstart hroot hitem)
  obtain ⟨origin, name, hreads, hdone⟩ := hw.done_of_known hstart hid
  refine ⟨name, { origin with file := item }, hreads, ?_⟩
  refine links_of_serves hstart item hdone.unlinked ?_ ?_ ?_ ?_ hdone.links
  · intro entry hentry
    exact (hw.faithful.serves (hdone.known entry hentry)).of_setup hw.setup.symm
  · intro entry hentry
    have hclosure : InClosure files start root entry.file.value :=
      Relation.ReflTransGen.tail hitem ⟨name, _, hreads, entry, hentry, rfl⟩
    obtain ⟨target, htarget⟩ := Option.isSome_iff_exists.1 (hdone.known entry hentry)
    obtain ⟨target, hresolve, -⟩ := hw.faithful.named htarget
    rw [base_eq_of_setup hw.setup] at hresolve
    exact hlayout.serves hclosure hresolve
  · intro old hold
    exact (hdone.eq_of_program hold).2.1
  · intro old hold
    have houtline := hlayout.outline_eq hstart hitem hreads hold
    exact houtline

/-- The programs of a workspace, as they were read, lay out the closure of a file that it knows. -/
theorem Sourced.exists_layout
    (hw : Sourced files start w) (hstart : Uniform files start) (hroot : (w.get? root).isSome) :
    ∃ arena place, Layout files start root arena place := by
  choose origin horigin using hw.settled.done
  let place (name : FileName) : ProgramId := (w.byPath.lookup name).getD 0
  let arena : Arena := List.ofFn fun i : Fin w.programs.length =>
    (origin i i.2).bindTo (placeOf files start place)
  have hpath : ∀ name ∈ closurePaths files start root,
      ∃ id, w.byPath.lookup name = some id ∧ place name = id := by
    rintro name ⟨item, hitem, hresolve⟩
    obtain ⟨id, hid⟩ := Option.isSome_iff_exists.1 (hw.known_of_inClosure hstart hroot hitem)
    obtain ⟨name', hresolve', hname⟩ := hw.faithful.named hid
    rw [base_eq_of_setup hw.setup] at hresolve'
    cases hresolve'.symm.trans hresolve
    exact ⟨id, hname, by simp [place, hname]⟩
  refine ⟨arena, place, ?_, ?_⟩
  · intro name hname name' hname' hplace
    obtain ⟨id, hid, hplaceId⟩ := hpath name hname
    obtain ⟨id', hid', hplaceId'⟩ := hpath name' hname'
    rw [hplaceId, hplaceId'] at hplace
    subst hplace
    exact hw.faithful.path_unique hid hid'
  · intro name hname
    obtain ⟨id, hid, hplaceId⟩ := hpath name hname
    have hlt : id < w.programs.length := hw.faithful.lt_of_path hid
    obtain ⟨⟨name', hreads⟩, hdone⟩ := horigin id hlt
    obtain rfl := hw.faithful.path_unique (hw.path_of_done hreads hdone) hid
    refine ⟨_, origin id hlt, hreads, ?_⟩
    rw [hplaceId]
    simp [arena, hlt]

/-! ## The closure decides -/

theorem Sourced.known_of_isOk
    (hw : Sourced files start w) {file : String} (h : (w.analyse files file).2.isOk) :
    ((w.analyse files file).1.get? file).isSome := by
  obtain ⟨id, hid⟩ := isOk_iff_exists.1 h
  obtain ⟨read, depth, hrun⟩ := exists_run_analyse files w file
  rw [hid] at hrun
  exact Option.isSome_iff_exists.2 ⟨id, hrun.known_of_ok hw.faithful.toIndexed⟩

theorem Sourced.isOk_iff_passes
    (hw : Sourced files start w) (hstart : Uniform files start)
    (hlayout : Layout files start root arena place) :
    (w.analyse files root).2.isOk ↔
      ∀ item, InClosure files start root item → Passes files start arena place item := by
  constructor
  · intro hok item hitem
    exact (hw.analyse root).passes hstart hlayout (hw.known_of_isOk hok) hitem
  · intro hpasses
    obtain ⟨read, depth, hrun⟩ := exists_run_analyse files w root
    refine isOk_iff_exists.2 (hrun.ok_of_passes hstart hlayout hpasses hw.faithful hw.setup ?_)
    intro item hitem
    rw [mem_singleton.1 hitem]
    exact inClosure_refl files start root

/-- On a tree of files, whatever was asked before, a file can be analysed if and only if every file
in its import closure can be read, and can be linked with the imports bound to the programs of the
closure.  How these are numbered makes no difference, and neither does what was analysed before; a
file that can be analysed has a closure of files that can be. -/
theorem analyse_isOk_iff_closure_passes
    (tree : FileTree) (base : String) (config : ParseConfig) (settings : List Setting)
    (requests : List Request) (file : String) :
    let start := new base config settings
    let w := start.serveAll (requests.map (tree.view, ·))
    ((w.analyse tree file).2.isOk ↔
      ∃ arena place, Layout tree start file arena place ∧
        ∀ item, InClosure tree start file item → Passes tree start arena place item) ∧
    (∀ arena place, Layout tree start file arena place →
      ((w.analyse tree file).2.isOk ↔
        ∀ item, InClosure tree start file item → Passes tree start arena place item)) ∧
    ((w.analyse tree file).2.isOk ↔ (start.analyse tree file).2.isOk) ∧
    ∀ item, InClosure tree start file item →
      (w.analyse tree file).2.isOk → (w.analyse tree item).2.isOk := by
  intro start w
  have hstart : Uniform tree start := uniform_tree tree (plainSuffixes_new base config settings)
  have hnew : Sourced tree start start := sourced_new tree base config settings
  have hw : Sourced tree start w := by
    refine serveAll_preserves ?_ hnew
    intro request hrequest w file hw
    obtain ⟨request, -, rfl⟩ := mem_map.1 hrequest
    exact hw.analyse file
  have hiff : ∀ {w : Workspace}, Sourced tree start w → ((w.analyse tree file).2.isOk ↔
      ∃ arena place, Layout tree start file arena place ∧
        ∀ item, InClosure tree start file item → Passes tree start arena place item) := by
    intro w hw
    constructor
    · intro hok
      obtain ⟨arena, place, hlayout⟩ :=
        (hw.analyse file).exists_layout hstart (hw.known_of_isOk hok)
      exact ⟨arena, place, hlayout, (hw.isOk_iff_passes hstart hlayout).1 hok⟩
    · rintro ⟨arena, place, hlayout, hpasses⟩
      exact (hw.isOk_iff_passes hstart hlayout).2 hpasses
  refine ⟨hiff hw, fun arena place hlayout => hw.isOk_iff_passes hstart hlayout,
    (hiff hw).trans (hiff hnew).symm, ?_⟩
  intro item hitem hok
  obtain ⟨arena, place, hlayout, hpasses⟩ := (hiff hw).1 hok
  refine (hw.isOk_iff_passes hstart (hlayout.of_inClosure hitem)).2 fun inner hinner => ?_
  exact hpasses inner (Relation.ReflTransGen.trans hitem hinner)

theorem closure_passes_cycle :
    ((new "" ⟨false⟩ []).analyse cycle "a.wproto").2.isOk ∧
      ∃ arena place, Layout cycle (new "" ⟨false⟩ []) "a.wproto" arena place ∧
        ∀ item, InClosure cycle (new "" ⟨false⟩ []) "a.wproto" item →
          Passes cycle (new "" ⟨false⟩ []) arena place item := by
  have hok : ((new "" ⟨false⟩ []).analyse cycle "a.wproto").2.isOk := by decide +kernel
  exact ⟨hok, (analyse_isOk_iff_closure_passes cycle "" ⟨false⟩ [] [] "a.wproto").1.1 hok⟩

end Idl.Workspace

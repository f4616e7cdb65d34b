import Idl.Proofs.Workspace.Binding

/-!
# Requests

A workspace serves requests one after the other, each of them on the files as they are by then.  A
request for a directory is a series of requests for files, so what every analysis of one file keeps
is kept by every sequence of requests.  The main statements are that the tables are in order between
any two requests, with all imports bound, and that an analysis that fails is rolled back.
-/

namespace Idl.Workspace

open List

variable {Q : Program → Prop} {ids : List ProgramId} {request : Request} {id : ProgramId}

/-- What a workspace is asked for. -/
inductive Request
  | file (file : String)
  /-- All files below a directory whose names end in the suffix. -/
  | directory (directory suffix : String)

/-- Serves a request; a request that succeeds is answered with programs. -/
def serve (files : FileView) (w : Workspace) :
    Request → Workspace × Except Failure (List ProgramId)
  | .file file =>
    let (w', result) := w.analyse files file
    (w', result.map fun id => [id])
  | .directory directory suffix => w.analyseDirectory files directory suffix

/-- The workspace after requests in order, each on files of its own. -/
def serveAll (w : Workspace) (requests : List (FileView × Request)) : Workspace :=
  requests.foldl (fun w request => (w.serve request.1 request.2).1) w

variable {files : FileView} {w w' : Workspace}

/-! ## What every analysis keeps, every sequence of requests keeps -/

/-- A request for a directory is a request for a list of files, and gives the programs of all of
them. -/
theorem analyseDirectory_cases (files : FileView) (w : Workspace) (directory suffix : String) :
    ∃ asked, (w.analyseDirectory files directory suffix).1 = (w.analyseAll files asked).1 ∧
      ∀ ids, (w.analyseDirectory files directory suffix).2 = .ok ids →
        ∃ ids', (w.analyseAll files asked).2 = .ok ids' ∧ ids = ids'.eraseDups := by
  refine ⟨((files.list directory).1.filter fun path =>
    suffix.toList.isSuffixOf (Path.lastName path).toList).map w.nameFromBase, ?_⟩
  simp only [analyseDirectory]
  split
  next heq => simp [heq]
  next heq _ => simp [heq]
  next heq _ => simp [heq, eq_comm]

section Preservation

variable {P : Workspace → Prop}

theorem analyseAll_preserves
    (hstep : ∀ w file, P w → P (w.analyse files file).1) (asked : List String) (hw : P w) :
    P (w.analyseAll files asked).1 := by
  fun_induction analyseAll files w asked with
  | case1 => exact hw
  | case2 w file rest w₁ failure hfile =>
    have hw₁ := hstep w file hw
    rwa [hfile] at hw₁
  | case3 w file rest w₁ id hfile w₂ failure hrest ih =>
    have hw₁ := hstep w file hw
    rw [hfile] at hw₁
    have hw₂ := ih hw₁
    rwa [hrest] at hw₂
  | case4 w file rest w₁ id hfile w₂ ids hrest ih =>
    have hw₁ := hstep w file hw
    rw [hfile] at hw₁
    have hw₂ := ih hw₁
    rwa [hrest] at hw₂

theorem serve_preserves
    (hstep : ∀ w file, P w → P (w.analyse files file).1) (request : Request) (hw : P w) :
    P (w.serve files request).1 := by
  cases request with
  | file file => exact hstep w file hw
  | directory directory suffix =>
    obtain ⟨asked, heq, -⟩ := analyseDirectory_cases files w directory suffix
    rw [serve, heq]
    exact analyseAll_preserves hstep asked hw

theorem serveAll_preserves
    {requests : List (FileView × Request)}
    (hstep : ∀ request ∈ requests, ∀ w file, P w → P (w.analyse request.1 file).1) (hw : P w) :
    P (w.serveAll requests) := by
  induction requests generalizing w with
  | nil => exact hw
  | cons request rest ih =>
    refine ih (fun other hother => hstep other (mem_cons_of_mem _ hother)) ?_
    exact serve_preserves (hstep request mem_cons_self) request.2 hw

end Preservation

/-! ## Tables in order, and imports bound -/

/-- Between two requests the tables are in order and every program is done.  What a program was read
as has the property `Q`. -/
structure Settled (Q : Program → Prop) (w : Workspace) : Prop extends Indexed w where
  done : ∀ id < w.programs.length, ∃ origin, Q origin ∧ Done w id origin

theorem settled_new
    (Q : Program → Prop) (base : String) (config : ParseConfig) (settings : List Setting) :
    Settled Q (new base config settings) :=
  ⟨indexed_new base config settings, fun id hid => absurd hid (Nat.not_lt_zero id)⟩

/-- Programs from before the call are as they were; what lasts is true of the programs of a call
that succeeds, and a call that fails leaves no others. -/
theorem Lasting.analyse
    {D : Workspace → ProgramId → Program → Prop} (hD : Lasting files D) (hw : Indexed w)
    (hold : ∀ id < w.programs.length, ∃ origin, Q origin ∧ D w id origin)
    (hQ : ∀ origin name, Reads files w origin.file name origin → Q origin) (file : String) :
    ∀ id < (w.analyse files file).1.programs.length,
      ∃ origin, Q origin ∧ D (w.analyse files file).1 id origin := by
  obtain ⟨read, depth, hrun⟩ := exists_run_analyse files w file
  obtain ⟨-, hextends⟩ := hrun.indexed_extends hw
  intro id hid
  have hkept : id < w.programs.length →
      ∃ origin, Q origin ∧ D (w.analyse files file).1 id origin := by
    intro hlt
    obtain ⟨origin, horigin, hlasts⟩ := hold id hlt
    refine ⟨origin, horigin, hD.mono hw hlasts hextends.grows ?_⟩
    have hprogram := getElem?_eq_getElem hlt
    rw [hprogram, hextends.program_of_none hprogram]
  cases hresult : (w.analyse files file).2 with
  | error failure =>
    rw [hresult] at hrun
    rw [(hrun.unchanged_of_error hw).1] at hid
    exact hkept hid
  | ok answer =>
    rcases Nat.lt_or_ge id w.programs.length with hlt | hge
    · exact hkept hlt
    · obtain ⟨origin, name, hreads, hlasts⟩ := hrun.lasting hD hw hresult nofun hge hid
      exact ⟨origin, hQ origin name hreads, hlasts⟩

theorem Settled.analyse
    (hw : Settled Q w) (files : FileView)
    (hQ : ∀ origin name, Reads files w origin.file name origin → Q origin) (file : String) :
    Settled Q (w.analyse files file).1 := by
  obtain ⟨read, depth, hrun⟩ := exists_run_analyse files w file
  exact ⟨(hrun.indexed_extends hw.toIndexed).1,
    (lasting_done files).analyse hw.toIndexed hw.done hQ file⟩

/-- A workspace with its programs done, whatever they were read from. -/
abbrev Steady (w : Workspace) : Prop := Settled (fun _ => True) w

theorem Steady.analyse
    (hw : Steady w) (files : FileView) (file : String) : Steady (w.analyse files file).1 :=
  Settled.analyse hw files (fun _ _ _ => trivial) file

theorem steady_serveAll
    (hw : Steady w) (requests : List (FileView × Request)) : Steady (w.serveAll requests) :=
  serveAll_preserves (fun request _ _ file hw => Steady.analyse hw request.1 file) hw

/-! ## Programs stay -/

/-- The workspace is in order and has the program at the number. -/
def Holds (id : ProgramId) (program : Program) (w : Workspace) : Prop :=
  Steady w ∧ w.programs[id]? = some program

theorem Holds.analyse
    {program : Program} (h : Holds id program w) (files : FileView) (file : String) :
    Holds id program (w.analyse files file).1 := by
  obtain ⟨read, depth, hrun⟩ := exists_run_analyse files w file
  exact ⟨Steady.analyse h.1 files file, (hrun.indexed_extends h.1.toIndexed).2.program_of_none h.2⟩

namespace Indexed

theorem analyse
    (hw : Indexed w) (files : FileView) (file : String) : Indexed (w.analyse files file).1 := by
  obtain ⟨read, depth, hrun⟩ := exists_run_analyse files w file
  exact (hrun.indexed_extends hw).1

theorem length_le_analyse (hw : Indexed w) (files : FileView) (file : String) :
    w.programs.length ≤ (w.analyse files file).1.programs.length := by
  obtain ⟨read, depth, hrun⟩ := exists_run_analyse files w file
  exact (hrun.indexed_extends hw).2.length_le

theorem lt_of_analyse_ok
    (hw : Indexed w) {file : String} (h : w.analyse files file = (w', .ok id)) :
    id < w'.programs.length := by
  obtain ⟨read, depth, hrun⟩ := exists_run_analyse files w file
  rw [h] at hrun
  exact (hrun.indexed_extends hw).1.lt_of_file (hrun.known_of_ok hw)

theorem lt_of_analyseAll_ok
    (hw : Indexed w) {asked : List String} (h : (w.analyseAll files asked).2 = .ok ids) :
    ∀ id ∈ ids, id < (w.analyseAll files asked).1.programs.length := by
  fun_induction analyseAll files w asked generalizing ids with
  | case1 =>
    cases h
    nofun
  | case2 | case3 => cases h
  | case4 w file rest w₁ id hfile w₂ ids' hrest ih =>
    cases h
    have hw₁ : Indexed w₁ := by
      have := hw.analyse files file
      rwa [hfile] at this
    have hkept : Indexed (w₁.analyseAll files rest).1 ∧
        id < (w₁.analyseAll files rest).1.programs.length :=
      analyseAll_preserves (P := fun w => Indexed w ∧ id < w.programs.length)
        (fun _ file h => ⟨h.1.analyse files file, h.2.trans_le (h.1.length_le_analyse files file)⟩)
        rest ⟨hw₁, hw.lt_of_analyse_ok hfile⟩
    rw [hrest] at ih hkept
    intro other hother
    rcases mem_cons.1 hother with rfl | hother
    · exact hkept.2
    · exact ih hw₁ rfl other hother

theorem lt_of_serve_ok (hw : Indexed w) (h : w.serve files request = (w', .ok ids)) :
    ∀ id ∈ ids, id < w'.programs.length := by
  cases request with
  | file file =>
    simp only [serve] at h
    generalize hcall : w.analyse files file = call at h
    obtain ⟨w₁, result⟩ := call
    cases result with
    | error failure => cases h
    | ok id =>
      cases h
      simpa using hw.lt_of_analyse_ok hcall
  | directory directory suffix =>
    obtain ⟨asked, hfst, hsnd⟩ := analyseDirectory_cases files w directory suffix
    simp only [serve] at h
    rw [h] at hfst hsnd
    obtain ⟨ids', hids, rfl⟩ := hsnd ids rfl
    intro id hid
    dsimp only at hfst
    rw [hfst]
    exact hw.lt_of_analyseAll_ok hids id (mem_eraseDups.1 hid)

end Indexed

theorem lt_of_serve_ok (hw : Steady w) (h : w.serve files request = (w', .ok ids)) :
    ∀ id ∈ ids, id < w'.programs.length :=
  hw.toIndexed.lt_of_serve_ok h

/-! ## Between requests -/

/-- The tables of a workspace fit together: each path has one program and each program one path,
each program goes by its own name, and each is linked to programs that are there. -/
structure Consistent (w : Workspace) : Prop where
  path_lt : ∀ {name id}, w.byPath.lookup name = some id → id < w.programs.length
  path_unique : ∀ id < w.programs.length, ∃! name, w.byPath.lookup name = some id
  file_lt : ∀ {file id}, w.byFile.lookup file = some id → id < w.programs.length
  file_of_program : ∀ {id program}, w.program? id = some program →
    w.get? program.file = some id
  files_nodup : (w.programs.map (·.file)).Nodup
  references : ∀ {id program}, w.program? id = some program → program.references.isSome
  imports : ∀ {id program}, w.program? id = some program → ∀ item ∈ program.schema.imports,
    ∃ target < w.programs.length, item.target = some target ∧
      w.get? item.file.value = some target

theorem Settled.consistent (hw : Settled Q w) : Consistent w where
  path_lt := hw.lt_of_path
  path_unique := by
    intro id hid
    obtain ⟨name, hname⟩ := hw.exists_path hid
    exact ⟨name, hname, fun other hother => hw.path_unique hother hname⟩
  file_lt := hw.lt_of_file
  file_of_program := hw.file_of_program
  files_nodup := by
    rw [nodup_iff_pairwise_ne, pairwise_iff_getElem]
    intro i j hi hj hlt heq
    simp only [length_map, getElem_map] at hi hj heq
    have hfile := hw.file_of_program (getElem?_eq_getElem hi)
    rw [heq, hw.file_of_program (getElem?_eq_getElem hj)] at hfile
    exact Nat.ne_of_gt hlt (Option.some.inj hfile)
  references := by
    intro id program hprogram
    obtain ⟨origin, -, hdone⟩ := hw.done id (lt_of_getElem? hprogram)
    exact (hdone.eq_of_program hprogram).2.2.1
  imports := by
    intro id program hprogram item hitem
    obtain ⟨origin, -, hdone⟩ := hw.done id (lt_of_getElem? hprogram)
    rw [(hdone.eq_of_program hprogram).2.2.2] at hitem
    obtain ⟨entry, hentry, rfl⟩ := mem_map.1 hitem
    obtain ⟨target, htarget⟩ := Option.isSome_iff_exists.1 (hdone.known entry hentry)
    exact ⟨target, hw.lt_of_file htarget, htarget, htarget⟩

/-- Between any two requests, whether they succeed or fail, the tables of a workspace fit together,
and a program that has answered a request stays where and as it is. -/
theorem consistent_between_requests
    (base : String) (config : ParseConfig) (settings : List Setting)
    (requests : List (FileView × Request)) :
    Consistent ((new base config settings).serveAll requests) ∧
      ∀ files request w' ids,
        ((new base config settings).serveAll requests).serve files request = (w', .ok ids) →
        ∀ id ∈ ids, ∃ program, w'.program? id = some program ∧
          ∀ later, (w'.serveAll later).program? id = some program := by
  have hw := steady_serveAll (settled_new _ base config settings) requests
  refine ⟨hw.consistent, ?_⟩
  intro files request w' ids hserve id hid
  have hlt : id < w'.programs.length := lt_of_serve_ok hw hserve id hid
  have hw' : Steady (((new base config settings).serveAll requests).serve files request).1 :=
    serve_preserves (P := Steady) (fun _ file h => Steady.analyse h files file) request hw
  rw [hserve] at hw'
  refine ⟨w'.programs[id], getElem?_eq_getElem hlt, fun later => ?_⟩
  have hkept : Holds id w'.programs[id] (w'.serveAll later) :=
    serveAll_preserves (fun request _ _ file h => h.analyse request.1 file)
      ⟨hw', getElem?_eq_getElem hlt⟩
  exact hkept.2

/-- Two files that import each other. -/
def cycle : FileTree where
  here := []
  nodes :=
    [(["a.wproto"], .file (Text.encodeUtf8
        "package a\nimport \"b.wproto\"\nmessage ma \x7b\n  b.mb forth = 1\n\x7d\n")),
      (["b.wproto"], .file (Text.encodeUtf8
        "package b\nimport \"a.wproto\"\nmessage mb \x7b\n  a.ma back = 1\n\x7d\n"))]

theorem consistent_between_requests_cycle :
    ∃ w', (new "" ⟨false⟩ []).serve cycle (.file "a.wproto") = (w', .ok [0]) ∧
      ∃ program, w'.program? 0 = some program ∧
        ∀ later, (w'.serveAll later).program? 0 = some program := by
  have hserve : ((new "" ⟨false⟩ []).serve cycle (.file "a.wproto")).2.toOption = some [0] := by
    decide +kernel
  generalize hcall : (new "" ⟨false⟩ []).serve cycle (.file "a.wproto") = call at hserve
  obtain ⟨w', result⟩ := call
  cases result with
  | error failure => cases hserve
  | ok ids =>
    cases hserve
    exact ⟨w', rfl, (consistent_between_requests "" ⟨false⟩ [] []).2 cycle (.file "a.wproto") w' [0]
      hcall 0 mem_cons_self⟩

/-! ## Rollback -/

/-- Nothing has changed but for further names of programs that were there: of files that lead to
their paths. -/
structure OnlyRenamed (files : FileView) (w w' : Workspace) : Prop where
  setup : w'.setup = w.setup
  programs : w'.programs = w.programs
  byPath : w'.byPath = w.byPath
  kept : ∀ {file id}, w.get? file = some id → w'.get? file = some id
  added : ∀ {file id}, w'.get? file = some id → w.get? file = some id ∨
    id < w.programs.length ∧
      ∃ name, files.resolve (Path.join w.base file) = .ok name ∧ w.byPath.lookup name = some id

/-- An analysis that fails is rolled back, wherever in the imports it has failed and whatever was
bound by then. -/
theorem rolled_back_of_analyse_error
    (base : String) (config : ParseConfig) (settings : List Setting)
    (requests : List (FileView × Request)) (files : FileView) (file : String) (failure : Failure)
    (h : (((new base config settings).serveAll requests).analyse files file).2 = .error failure) :
    OnlyRenamed files ((new base config settings).serveAll requests)
      (((new base config settings).serveAll requests).analyse files file).1 := by
  have hw := steady_serveAll (settled_new _ base config settings) requests
  generalize (new base config settings).serveAll requests = w at h hw ⊢
  obtain ⟨read, depth, hrun⟩ := exists_run_analyse files w file
  rw [h] at hrun
  obtain ⟨-, hextends⟩ := hrun.indexed_extends hw.toIndexed
  obtain ⟨hprograms, hpaths⟩ := hrun.unchanged_of_error hw.toIndexed
  refine ⟨hextends.setup, hprograms, hpaths, hextends.names, ?_⟩
  intro other id hother
  rcases hextends.named hother with hother | ⟨name, hresolve, hname⟩
  · exact .inl hother
  · rw [hpaths] at hname
    exact .inr ⟨hw.lt_of_path hname, name, hresolve, hname⟩

/-- Two files that import each other, of which the first uses a type that is nowhere declared.  The
second also imports a third file, under another name than the one it is asked for at first. -/
def brokenCycle : FileTree where
  here := []
  nodes :=
    [(["a.wproto"], .file (Text.encodeUtf8
        "package a\nimport \"b.wproto\"\nmessage ma \x7b\n  missing f = 1\n\x7d\n")),
      (["b.wproto"], .file (Text.encodeUtf8
        ("package b\nimport \"a.wproto\"\nimport \"./c.wproto\"\n" ++
          "message mb \x7b\n  a.ma f = 1\n\x7d\n"))),
      (["c.wproto"], .file (Text.encodeUtf8 "package c\n"))]

/-- The workspace that holds the third file. -/
def beforeBrokenCycle : Workspace :=
  (new "" ⟨false⟩ []).serveAll [(brokenCycle, .file "c.wproto")]

theorem rolled_back_brokenCycle :
    (∃ failure, (beforeBrokenCycle.analyse brokenCycle "a.wproto").2 = .error failure) ∧
      OnlyRenamed brokenCycle beforeBrokenCycle
        (beforeBrokenCycle.analyse brokenCycle "a.wproto").1 ∧
      beforeBrokenCycle.get? "./c.wproto" = none ∧
      (beforeBrokenCycle.analyse brokenCycle "a.wproto").1.get? "./c.wproto" = some 0 := by
  obtain ⟨hfails, hnames⟩ : (beforeBrokenCycle.analyse brokenCycle "a.wproto").2.isOk = false ∧
      beforeBrokenCycle.get? "./c.wproto" = none ∧
      (beforeBrokenCycle.analyse brokenCycle "a.wproto").1.get? "./c.wproto" = some 0 := by
    decide +kernel
  cases hresult : (beforeBrokenCycle.analyse brokenCycle "a.wproto").2 with
  | ok id =>
    rw [hresult] at hfails
    cases hfails
  | error failure =>
    exact ⟨⟨failure, rfl⟩, rolled_back_of_analyse_error _ _ _ _ _ _ failure hresult, hnames⟩

end Idl.Workspace

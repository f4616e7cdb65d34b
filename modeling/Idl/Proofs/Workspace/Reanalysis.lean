import Idl.Proofs.Text.Utf8
import Idl.Proofs.Workspace.Editions

/-!
# Outputs are analysed again

A new workspace is asked for what was printed for the programs of a workspace.  It can analyse all
of it and binds every type name to what was printed for the declaration that the name was bound to,
if and only if each program is portable: what is printed of it means what it means.
-/

namespace Idl.Workspace

open List

variable {program : Program} {id : ProgramId} {tree : FileTree}
variable {files : FileView} {start start' w w' : Workspace} {ρ : ProgramId → ProgramId}

/-- The second workspace has each program of the first under a new number.  It declares the same
types there, and its type names are bound to the same declarations. -/
def Reproduces (ρ : ProgramId → ProgramId) (w w' : Workspace) : Prop :=
  ∀ id program, w.program? id = some program → ∃ program', w'.program? (ρ id) = some program' ∧
    (∀ path, program'.schema.typeName? path = program.schema.typeName? path) ∧
    program.schema.KeepsReferences ρ program'.schema

/-- The names of the outputs of a workspace. -/
def outputNames (w : Workspace) : List String :=
  w.programs.map fun program => Proto.fileName program.file

theorem Grown.bound (hw : Grown start w) (hprogram : w.programs[id]? = some program) :
    ∀ m ∈ program.schema.messages, m.Each TypeName.Bound := by
  obtain ⟨origin, -, hmade⟩ := hw.made id (lt_of_getElem? hprogram)
  obtain ⟨references, services, messages, rfl, -, heach⟩ := hmade.program_eq hprogram
  exact heach

/-- A program is portable if its qualifiers are the packages of its imports. -/
theorem Grown.portable_of_qualifies
    (hw : Grown start w) (hprogram : w.programs[id]? = some program)
    (himports : (program.schema.imports.map fun item => Proto.fileName item.file.value).Nodup)
    (hcustom : ∀ m ∈ program.schema.messages, m.Each TypeName.Custom)
    (hqualifies : program.Qualifies w.programs) : program.Portable w.programs id := by
  obtain ⟨origin, ⟨_, _, hreads⟩, hmade⟩ := hw.made id (lt_of_getElem? hprogram)
  exact ⟨himports, hcustom,
    hmade.unaliased_of_qualifies hprogram hw.toIndexed hreads.fresh hqualifies⟩

/-! ## Numbers of the outputs -/

theorem known_of_analyseAll
    (hw : Indexed start')
    (h : start'.analyseAll files w.outputNames = (w', .ok ((List.range w.programs.length).map ρ)))
    (hprogram : w.programs[id]? = some program) :
    w'.get? (Proto.fileName program.file) = some (ρ id) := by
  have hid := lt_of_getElem? hprogram
  have hnumbers := hw.get?_of_analyseAll h
  rw [outputNames, map_map, map_map] at hnumbers
  have hat := congrArg (fun found : List (Option ProgramId) => found[id]?) hnumbers
  simp only [getElem?_map, hprogram, getElem?_range hid, Option.map_some] at hat
  exact Option.some.inj hat

theorem analyseAll_eq_of_known
    (hw : Indexed start') {ids : List ProgramId}
    (h : start'.analyseAll files w.outputNames = (w', .ok ids))
    (hknown : ∀ {id : ProgramId} {program : Program}, w.programs[id]? = some program →
      w'.get? (Proto.fileName program.file) = some (ρ id)) :
    ids = (List.range w.programs.length).map ρ := by
  refine map_injective_iff.2 (Option.some_injective _) ?_
  rw [← hw.get?_of_analyseAll h, outputNames, map_map, map_map]
  refine ext_getElem (by simp) fun i hi _ => ?_
  have hlt : i < w.programs.length := by simpa using hi
  simp only [getElem_map, getElem_range, Function.comp_apply]
  exact hknown (getElem?_eq_getElem hlt)

/-! ## Portable programs are reproduced -/

namespace Edition

variable {copy : ProgramId → Program} {name : ProgramId → FileName} {id : ProgramId}
  {program program' : Program}

section

variable (h : Edition files start w copy name) (hstart : Uniform files start)
  (hw' : Traced files start w')
  (hknown : ∀ {id : ProgramId} {program : Program}, w.programs[id]? = some program →
    w'.get? (Proto.fileName program.file) = some (ρ id))
  (hρ : Function.Injective ρ) (hprogram : w.programs[id]? = some program)

include h hstart hw' hknown hprogram

theorem exists_program : ∃ program', w'.programs[ρ id]? = some program' := by
  obtain ⟨program', hprogram', -⟩ := Option.map_eq_some_iff.1
    (h.outline_eq hstart hw' hknown (lt_of_getElem? hprogram))
  exact ⟨program', hprogram'⟩

include hρ

/-- What comes of the copy of a portable program keeps its references. -/
theorem keepsReferences_of_portable
    (hprogram' : w'.programs[ρ id]? = some program') (hportable : program.Portable w.programs id)
    (hbound : ∀ m ∈ program.schema.messages, m.Each TypeName.Bound) :
    program.schema.KeepsReferences ρ program'.schema := by
  obtain ⟨linked, hlink, -, hreferences⟩ :=
    h.exists_bound hstart hw' hknown hρ hprogram hportable.custom hprogram'
  obtain ⟨linked', hlink', -, hmessages⟩ := hportable.unaliased
  cases hlink.symm.trans hlink'
  rw [hmessages] at hreferences
  exact Schema.keepsReferences_of_references hreferences hbound

theorem portable_of_keepsReferences
    (himports : (program.schema.imports.map fun item => Proto.fileName item.file.value).Nodup)
    (hprogram' : w'.programs[ρ id]? = some program')
    (hkeeps : program.schema.KeepsReferences ρ program'.schema) :
    program.Portable w.programs id := by
  have hcustom : ∀ m ∈ program.schema.messages, m.Each TypeName.Custom := by
    refine Schema.custom_of_bare (h.restated hstart hw' hknown hprogram hprogram').2 ?_
    intro path index field type hfield htype
    obtain ⟨field', target, hfield', -, -, htarget'⟩ := hkeeps path index field type hfield htype
    obtain ⟨type', htype', -⟩ := Option.bind_eq_some_iff.1 htarget'
    exact ⟨field', hfield', Option.isSome_iff_exists.2 ⟨type', htype'⟩⟩
  obtain ⟨linked, hlink, hfault, hreferences⟩ :=
    h.exists_bound hstart hw' hknown hρ hprogram hcustom hprogram'
  refine ⟨himports, hcustom, linked, hlink, hfault, ?_⟩
  exact hkeeps.messages_eq hρ hreferences
    (Program.unbind_bindReferences_unnamed hlink w.programs id)

end

theorem typeName?_eq
    (h : Edition files start w copy name) (hstart : Uniform files start)
    (hw' : Traced files start w')
    (hknown : ∀ {id : ProgramId} {program : Program}, w.programs[id]? = some program →
      w'.get? (Proto.fileName program.file) = some (ρ id))
    (hprogram : w.programs[id]? = some program) (hprogram' : w'.programs[ρ id]? = some program')
    (path : TypePath) : program'.schema.typeName? path = program.schema.typeName? path := by
  obtain ⟨henums, hmessages⟩ := h.restated hstart hw' hknown hprogram hprogram'
  exact Schema.typeName?_of_redraw Redraw.keepsNames_reread Redraw.keepsNames_bare henums hmessages
    path

end Edition

section Reanalysis

variable (hw : Grown start w) (hstart : Uniform files start') (hblank : start'.Blank)
  (hdialect : ∀ program ∈ w.programs,
    start'.dialectOf (Proto.fileName program.file) = .ok .protobuf)
  (hpublished : Published files start'.base w)
  (hprintable : ∀ program ∈ w.programs, program.Printable w.programs)

include hw hstart hblank hdialect hpublished hprintable

/-- The outputs of portable programs are analysed, and the programs are reproduced. -/
theorem Grown.exists_reproduction
    (hportable : ∀ {id : ProgramId} {program : Program}, w.programs[id]? = some program →
      program.Portable w.programs id) :
    ∃ w' ρ, Function.Injective ρ ∧
      start'.analyseAll files w.outputNames = (w', .ok ((List.range w.programs.length).map ρ)) ∧
      Reproduces ρ w w' := by
  have hreads : ∀ program ∈ w.programs,
      ∃ name copy, Reads files start' (Proto.fileName program.file) name copy := by
    intro program hmem
    obtain ⟨id, hprogram⟩ := mem_iff_getElem?.1 hmem
    obtain ⟨name, hresolve, htext⟩ := bind_eq_ok_iff.1 (hpublished.output program hmem)
    obtain ⟨copy, hcopy⟩ := hw.exists_reads hprogram (hdialect program hmem) htext
      (hprintable program hmem) hresolve (hportable hprogram).imports
    exact ⟨name, copy, hcopy⟩
  obtain ⟨copy, name, hedition⟩ := hw.exists_edition hdialect hpublished hprintable hreads
  have htraced := hblank.traced files
  obtain ⟨w', ids, hall⟩ := hedition.exists_analyseAll hstart hportable htraced
  have hw' : Traced files start' w' := by
    have hkept := analyseAll_preserves (P := Traced files start') (fun _ file h => h.analyse file)
      (w.programs.map fun program => Proto.fileName program.file) htraced
    rwa [hall] at hkept
  have hindexed := htraced.faithful.toIndexed
  have hsome : ∀ program ∈ w.programs, (w'.get? (Proto.fileName program.file)).isSome := by
    intro program hmem
    have hfound : w'.get? (Proto.fileName program.file) ∈ ids.map some := by
      rw [← hindexed.get?_of_analyseAll hall, map_map]
      exact mem_map_of_mem hmem
    obtain ⟨id, -, hid⟩ := mem_map.1 hfound
    exact Option.isSome_iff_exists.2 ⟨id, hid.symm⟩
  obtain ⟨ρ, hρ, hknown⟩ := hedition.exists_renumbering hw' hsome
  refine ⟨w', ρ, hρ, ?_, fun id program hprogram => ?_⟩
  · rw [← analyseAll_eq_of_known hindexed hall hknown]
    exact hall
  · obtain ⟨program', hprogram'⟩ := hedition.exists_program hstart hw' hknown hprogram
    exact ⟨program', hprogram', hedition.typeName?_eq hstart hw' hknown hprogram hprogram',
      hedition.keepsReferences_of_portable hstart hw' hknown hρ hprogram hprogram'
        (hportable hprogram) (hw.bound hprogram)⟩

/-- Programs that are reproduced from their outputs are portable. -/
theorem Grown.portable_of_reproduces
    (hρ : Function.Injective ρ)
    (hall : start'.analyseAll files w.outputNames =
      (w', .ok ((List.range w.programs.length).map ρ)))
    (hreproduces : Reproduces ρ w w') (hprogram : w.programs[id]? = some program) :
    program.Portable w.programs id := by
  have htraced := hblank.traced files
  have hw' : Traced files start' w' := by
    have hkept := analyseAll_preserves (P := Traced files start') (fun _ file h => h.analyse file)
      w.outputNames htraced
    rwa [hall] at hkept
  have hknown : ∀ {id : ProgramId} {program : Program}, w.programs[id]? = some program →
      w'.get? (Proto.fileName program.file) = some (ρ id) :=
    known_of_analyseAll htraced.faithful.toIndexed hall
  have hreads : ∀ program ∈ w.programs,
      ∃ name copy, Reads files start' (Proto.fileName program.file) name copy := by
    intro program hmem
    obtain ⟨id, hprogram⟩ := mem_iff_getElem?.1 hmem
    obtain ⟨name, hresolve, hname⟩ := hw'.path_of_known (hknown hprogram)
    obtain ⟨found, hreads, -⟩ := hw'.made_of_path hname
    exact ⟨name, _, hstart hreads hresolve⟩
  obtain ⟨copy, name, hedition⟩ := hw.exists_edition hdialect hpublished hprintable hreads
  have hmem := mem_of_getElem? hprogram
  obtain ⟨name', hresolve, htext⟩ := bind_eq_ok_iff.1 (hpublished.output program hmem)
  cases hresolve.symm.trans (hedition.reads hprogram).1
  obtain ⟨-, himports⟩ := hw.retells_of_reads hprogram (hdialect program hmem) htext
    (hprintable program hmem) (hedition.reads hprogram)
  obtain ⟨program', hprogram', -, hkeeps⟩ := hreproduces id program hprogram
  exact hedition.portable_of_keepsReferences hstart hw' hknown hρ hprogram himports hprogram'
    hkeeps

end Reanalysis

/-- What is printed for the programs of a workspace, put into a tree of files under the names of the
outputs, is analysed by a new workspace and means there what it meant, if and only if each program
is portable.  Then every program has a new number, declares what it declared, and each field that
has a type name is bound to the same declaration under the new number. -/
theorem outputs_reproduce_iff_portable
    (base : String) (config : ParseConfig) (settings : List Setting)
    (requests : List (FileView × Request)) (tree : FileTree)
    (base' : String) (config' : ParseConfig) (settings' : List Setting) :
    let w := (new base config settings).serveAll requests
    Published tree base' w → (∀ program ∈ w.programs, program.Printable w.programs) →
    ((∃ w' ρ, Function.Injective ρ ∧
        (new base' config' settings').analyseAll tree w.outputNames =
          (w', .ok ((List.range w.programs.length).map ρ)) ∧ Reproduces ρ w w') ↔
      ∀ id program, w.program? id = some program → program.Portable w.programs id) := by
  intro w hpublished hprintable
  have hw : Grown (new base config settings) w := grown_serveAll base config settings requests
  have hstart : Uniform tree (new base' config' settings') :=
    uniform_tree tree (plainSuffixes_new base' config' settings')
  have hblank := blank_new base' config' settings'
  have hdialect : ∀ program ∈ w.programs,
      (new base' config' settings').dialectOf (Proto.fileName program.file) = .ok .protobuf :=
    fun program hprogram => hw.dialectOf_output hpublished hprogram
  constructor
  · rintro ⟨w', ρ, hρ, hall, hreproduces⟩ id program hprogram
    exact hw.portable_of_reproduces hstart hblank hdialect hpublished hprintable hρ hall hreproduces
      hprogram
  · intro hportable
    exact hw.exists_reproduction hstart hblank hdialect hpublished hprintable (hportable _ _)

/-! ## A directory of outputs -/

/-- The name of a file of a directory, as it can be in a path. -/
def PlainName (name : String) : Prop :=
  (∀ c ∈ name.toList, c ≠ '/' ∧ c ≠ '\x00') ∧ name.utf8ByteSize ≤ FileName.maxPart ∧
    Path.component? name = some (.normal name)

instance : DecidablePred PlainName := fun name =>
  haveI : Decidable (∀ c ∈ name.toList, c ≠ '/' ∧ c ≠ '\x00') := List.decidableBAll _ _
  inferInstanceAs (Decidable (_ ∧ _ ∧ _))

/-- A directory that holds nothing but the outputs of a workspace. -/
def printed (w : Workspace) : FileTree where
  here := []
  nodes := w.programs.map fun program =>
    ([Proto.fileName program.file],
      .file (Text.encodeUtf8 (Proto.render (program.fileDesc w.programs))))

/-- Nothing is printed under two names, all names are plain, and an import is printed under the name
of the output of its program. -/
structure Flat (w : Workspace) : Prop where
  apart : w.outputNames.Nodup
  plain : ∀ name ∈ w.outputNames, PlainName name
  imports : ∀ program ∈ w.programs, ∀ item ∈ program.schema.imports, ∀ id ∈ item.target,
    ∀ other ∈ w.programs[id]?, Proto.fileName item.file.value = Proto.fileName other.file

instance (w : Workspace) : Decidable w.Flat :=
  decidable_of_iff (_ ∧ _ ∧ _)
    ⟨fun h => ⟨h.1, h.2.1, h.2.2⟩, fun h => ⟨h.apart, h.plain, h.imports⟩⟩

theorem resolve_of_plainName
    {name : String} (hhere : tree.here = []) (hname : PlainName name)
    (hnode : (tree.node? [name]).isSome) : tree.resolve name = .ok [name] := by
  obtain ⟨hchars, hlength, hplain⟩ := hname
  have hslash : '/' ∉ name.toList := fun hmem => (hchars _ hmem).1 rfl
  have hzero : '\x00' ∉ name.toList := fun hmem => (hchars _ hmem).2 rfl
  have hempty : name ≠ "" := by
    rintro rfl
    cases hplain
  have hdot : name ≠ "." := by
    rintro rfl
    cases hplain
  have hdots : name ≠ ".." := by
    rintro rfl
    cases hplain
  have hstart : tree.start name = [] := by
    rw [FileTree.start, hhere, ite_self]
  have hchild : tree.child [] name = .ok [name] := by
    simp [FileTree.child, FileTree.node?, Nat.not_lt.2 hlength]
  simp [FileTree.resolve, hzero, hempty, hstart, Path.parts_eq_singleton hslash, FileTree.follow,
    hchild, hdot, hdots, hnode, bind, Except.bind]

theorem readName_of_node?
    {name : FileName} {text : String}
    (hnode : tree.node? name = some (.file (Text.encodeUtf8 text))) :
    tree.view.readName name = .ok text := by
  have hbytes : tree.bytesOf name = .ok (Text.encodeUtf8 text) := by rw [FileTree.bytesOf, hnode]
  have hread : tree.readName name = .ok text := by
    rw [FileTree.readName, hbytes]
    simp only [bind, Except.bind, Text.decodeUtf8_encodeUtf8]
    rfl
  exact hread

theorem Flat.node?_printed (h : w.Flat) (hprogram : program ∈ w.programs) :
    w.printed.node? [Proto.fileName program.file] =
      some (.file (Text.encodeUtf8 (Proto.render (program.fileDesc w.programs)))) := by
  have hkeys : (w.printed.nodes.map (·.1)).Nodup := by
    have hsame : w.printed.nodes.map (·.1) = w.outputNames.map fun name => [name] := by
      simp [printed, outputNames]
    rw [hsame]
    exact h.apart.map fun name name' heq => singleton_inj.1 heq
  rw [FileTree.node?, isEmpty_cons, if_neg Bool.false_ne_true,
    Assoc.lookup_eq_some_iff_mem hkeys]
  exact mem_map_of_mem hprogram

theorem Flat.resolve_printed (h : w.Flat) (hprogram : program ∈ w.programs) :
    w.printed.resolve (Path.join "" (Proto.fileName program.file)) =
      .ok [Proto.fileName program.file] := by
  have hjoin : Path.join "" (Proto.fileName program.file) = Proto.fileName program.file := by
    rw [Path.join]
    split <;> simp
  rw [hjoin]
  refine resolve_of_plainName rfl (h.plain _ (mem_map_of_mem hprogram)) ?_
  rw [h.node?_printed hprogram]
  rfl

/-- A directory of outputs is what a workspace can publish. -/
theorem Flat.published (h : w.Flat) : Published w.printed "" w := by
  constructor
  · intro program hprogram
    rw [FileTree.resolve_view, h.resolve_printed hprogram]
    exact readName_of_node? (h.node?_printed hprogram)
  · intro program hprogram item hitem id hid other hother
    rw [h.imports program hprogram item hitem id hid other hother]

/-- The workspace that has analysed a file of a tree. -/
def afterFile (tree : FileTree) (file : String) : Workspace :=
  (new "" ⟨false⟩ []).serveAll [(tree, .file file)]

/-- Two files that import each other, one of them under the name of its package. -/
def knownCycle : FileTree where
  here := []
  nodes :=
    [(["a.wproto"], .file (Text.encodeUtf8 ("package a\nimport b \"b.wproto\"\n" ++
        "message ma \x7b\nenum kind \x7b one \x7d\nkind sort = 1\nb.mb forth = 2\n\x7d\n"))),
      (["b.wproto"], .file (Text.encodeUtf8 ("package b\nimport \"a.wproto\"\n" ++
        "message mb \x7b\nmap<int8, a.kind> sorts = 1\nrepeated a.ma back = 2\n\x7d\n")))]

theorem outputs_reproduce_knownCycle :
    let w := afterFile knownCycle "a.wproto"
    w.outputNames = ["a.proto", "b.proto"] ∧ Published w.printed "" w ∧
      (∀ program ∈ w.programs, program.Printable w.programs) ∧
      ∃ w' ρ, Function.Injective ρ ∧
        (new "" ⟨false⟩ []).analyseAll w.printed w.outputNames =
          (w', .ok ((List.range w.programs.length).map ρ)) ∧ Reproduces ρ w w' := by
  intro w
  obtain ⟨hnames, hflat, hprintable, hportable⟩ : w.outputNames = ["a.proto", "b.proto"] ∧
      w.Flat ∧ (∀ program ∈ w.programs, program.Printable w.programs) ∧
      ∀ program ∈ w.programs,
        (program.schema.imports.map fun item => Proto.fileName item.file.value).Nodup ∧
          (∀ m ∈ program.schema.messages, m.Each TypeName.Custom) ∧
          program.Qualifies w.programs := by
    decide +kernel
  refine ⟨hnames, hflat.published, hprintable, (outputs_reproduce_iff_portable "" ⟨false⟩ [] _
    w.printed "" ⟨false⟩ [] hflat.published hprintable).2 fun id program hprogram => ?_⟩
  obtain ⟨himports, hcustom, hqualifies⟩ := hportable program (mem_of_getElem? hprogram)
  exact (grown_serveAll "" ⟨false⟩ [] _).portable_of_qualifies hprogram himports hcustom hqualifies

/-- A file that uses a local name for its import. -/
def renamedImport : FileTree where
  here := []
  nodes :=
    [(["a.wproto"], .file (Text.encodeUtf8
        "package a\nimport q \"b.wproto\"\nmessage m \x7b q.x f = 1 \x7d")),
      (["b.wproto"], .file (Text.encodeUtf8 "package b\nmessage x \x7b int32 n = 1 \x7d"))]

/-- What is printed for a program with a local name can be parsed, but its type names stand for
nothing there. -/
theorem outputs_of_renamedImport :
    let w := afterFile renamedImport "a.wproto"
    w.outputNames = ["a.proto", "b.proto"] ∧ Published w.printed "" w ∧
      (∀ program ∈ w.programs, ∃ read, Dialect.protobuf.parse ⟨false⟩
        (Proto.render (program.fileDesc w.programs)) = .ok read) ∧
      ¬ ∃ w' ρ, Function.Injective ρ ∧
        (new "" ⟨false⟩ []).analyseAll w.printed w.outputNames =
          (w', .ok ((List.range w.programs.length).map ρ)) ∧ Reproduces ρ w w' := by
  intro w
  obtain ⟨hnames, hflat, hprintable, hfault⟩ : w.outputNames = ["a.proto", "b.proto"] ∧
      w.Flat ∧ (∀ program ∈ w.programs, program.Printable w.programs) ∧
      (w.programs[0]?.bind fun program => (program.unnamed.linkImports w.programs).toOption.bind
        fun linked => (linked.bindReferences w.programs 0).2).isSome := by
    decide +kernel
  have hw : Grown (new "" ⟨false⟩ []) w := grown_serveAll "" ⟨false⟩ [] _
  refine ⟨hnames, hflat.published, fun program hprogram => ?_, ?_⟩
  · obtain ⟨id, hid⟩ := mem_iff_getElem?.1 hprogram
    obtain ⟨read, hparse, -⟩ := hw.exists_restated hid (hprintable program hprogram) ⟨false⟩
    exact ⟨read, hparse⟩
  · rintro ⟨w', ρ, hρ, hall, hreproduces⟩
    obtain ⟨fault, hfault⟩ := Option.isSome_iff_exists.1 hfault
    obtain ⟨program, hprogram, hfault⟩ := Option.bind_eq_some_iff.1 hfault
    have hportable := hw.portable_of_reproduces (uniform_tree _ (plainSuffixes_new "" ⟨false⟩ []))
      (blank_new "" ⟨false⟩ []) (fun program hmem => hw.dialectOf_output hflat.published hmem)
      hflat.published hprintable hρ hall hreproduces hprogram
    obtain ⟨linked, hlink, hnone, -⟩ := hportable.unaliased
    rw [hlink] at hfault
    cases hnone.symm.trans hfault

end Idl.Workspace

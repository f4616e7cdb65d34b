import Idl.Command.Run
import Idl.Proofs.Files.Cleaning
import Idl.Proofs.Files.Outputs
import Idl.Proofs.Workspace.Success

/-!
# Sources and outputs of one run

The built-in generators name their outputs after the schemas, and a run may write beside them.  The
descriptor of a schema never has the name of a schema.  Its protobuf notation is written over
another schema only if it comes to have the name of that schema; this is then in protobuf notation
itself, or only a dot stands before the extension of the one that the notation is made of.  All
other schemas stay as they are, whatever the directories and the spellings of a run, and whether or
not it fails.  A file tree has no links, so two names are two files.
-/

namespace Idl

open List

variable {program : Program} {registry : Registry} {names : List String} {commands : Commands}

/-! ## Registered generators -/

theorem Registry.mem_of_foldl_register
    {generators : List Generator} {entry : String × Generator}
    (h : entry ∈ generators.foldl (fun registry generator => (registry.register generator).1)
      registry) :
    entry ∈ registry ∨ entry.2 ∈ generators := by
  induction generators generalizing registry with
  | nil => exact .inl h
  | cons generator generators ih =>
    rcases ih h with hold | hmore
    · -- the generator that is entered takes a place of its own or that of another
      rcases Assoc.mem_or_eq_of_mem_put hold with hold | hnew
      · exact .inl hold
      · exact .inr (hnew ▸ mem_cons_self)
    · exact .inr (mem_cons_of_mem _ hmore)

/-- What is registered is a built-in generator of one of the names, or the generator of a plugin of
one of the texts. -/
theorem Registry.cases_of_ofNames
    {plugins : List String} (h : ofNames commands names plugins = .ok registry) :
    ∀ generator ∈ registry.map (·.2),
      (generator ∈ Generator.builtIn ∧ generator.name ∈ names) ∨
        ∃ text ∈ plugins, ∃ plugin : Plugin, .ok plugin = Plugin.ofText text ∧
          generator = plugin.generator commands := by
  simp only [ofNames, bind_eq_ok_iff, pure_eq_ok_iff] at h
  obtain ⟨chosen, hchosen, made, hmade, rfl⟩ := h
  intro generator hgenerator
  obtain ⟨entry, hentry, rfl⟩ := mem_map.1 hgenerator
  rcases mem_of_foldl_register hentry with hentry | hentry
  · cases hentry
  rcases mem_append.1 hentry with hentry | hentry
  · obtain ⟨name, hname, hfind⟩ := exists_of_mem_mapM hchosen hentry
    split at hfind
    next found hfound =>
      cases hfind
      have heq := find?_some hfound
      exact .inl ⟨mem_of_find?_eq_some hfound, eq_of_beq heq ▸ hname⟩
    next => cases hfind
  · obtain ⟨text, htext, hplugin⟩ := exists_of_mem_mapM hmade hentry
    obtain ⟨plugin, hofText, hgenerator⟩ := bind_eq_ok_iff.1 hplugin
    exact .inr ⟨text, htext, plugin, hofText.symm, (pure_eq_ok_iff.1 hgenerator).symm⟩

/-! ## Sources -/

/-- The analysis of a run, before anything is written. -/
def analysed (files : FileTree) (config : GenerateConfig) (args : Args) :
    Workspace × Except Failure (List ProgramId) :=
  analyseInput files args (args.suffix.getD config.suffix)
    (Workspace.new args.input ⟨args.useMethodId || config.useMethodId⟩
      (Setting.ofTexts (config.options ++ args.options)))

/-- What a run builds, and of which programs, if nothing fails before. -/
def planned (commands : Commands) (files : FileTree) (config : GenerateConfig) (args : Args) :
    Except Failure (Build × List ProgramId) := do
  let registry ←
    Registry.ofNames commands (config.generators ++ args.lang) (config.plugins ++ args.cmd)
  if registry.isEmpty then throw (.config .noGenerator) else
    let ids ← (analysed files config args).2
    return (⟨(analysed files config args).1.programs, registry, args.output.getD args.input,
      args.mergeSameFile || config.mergeSameFile⟩, ids)

/-- The paths that a run writes, in order, whether or not something fails. -/
def writtenPaths (commands : Commands) (files : FileTree) (config : GenerateConfig) (args : Args) :
    List String :=
  match planned commands files config args with
  | .error _ => []
  | .ok (build, ids) => build.written files ids

section Run

variable {files : FileTree} {config : GenerateConfig} {args : Args}

/-- A run fails before it writes, or it builds what is planned. -/
theorem generate_cases (commands : Commands) (files : FileTree) (config : GenerateConfig)
    (args : Args) :
    (∃ failure, planned commands files config args = .error failure ∧
        generate commands files config args = (files, .error failure)) ∨
      ∃ build ids, planned commands files config args = .ok (build, ids) ∧
        generate commands files config args = build.run files ids := by
  unfold planned generate analysed
  cases Registry.ofNames commands (config.generators ++ args.lang) (config.plugins ++ args.cmd) with
  | error failure => exact .inl ⟨failure, rfl, rfl⟩
  | ok registry =>
    simp only [bind, Except.bind]
    split
    next => exact .inl ⟨_, rfl, rfl⟩
    next =>
      cases hinput : analyseInput files args (args.suffix.getD config.suffix)
        (Workspace.new args.input ⟨args.useMethodId || config.useMethodId⟩
          (Setting.ofTexts (config.options ++ args.options))) with
      | mk w result =>
        cases result with
        | error failure => exact .inl ⟨failure, rfl, rfl⟩
        | ok ids => exact .inr ⟨_, _, rfl, rfl⟩

theorem of_planned
    {build : Build} {ids : List ProgramId}
    (h : planned commands files config args = .ok (build, ids)) :
    Registry.ofNames commands (config.generators ++ args.lang) (config.plugins ++ args.cmd) =
        .ok build.registry ∧
      (analysed files config args).2 = .ok ids ∧
      build.programs = (analysed files config args).1.programs ∧
      build.directory = args.output.getD args.input := by
  obtain ⟨registry, hregistry, h⟩ := bind_eq_ok_iff.1 h
  split at h
  · cases h
  · obtain ⟨found, hfound, h⟩ := bind_eq_ok_iff.1 h
    cases pure_eq_ok_iff.1 h
    exact ⟨hregistry, hfound, rfl, rfl⟩

theorem sourced_analysed (files : FileTree) (config : GenerateConfig) (args : Args) :
    Workspace.Sourced files (Workspace.new args.input ⟨args.useMethodId || config.useMethodId⟩
      (Setting.ofTexts (config.options ++ args.options))) (analysed files config args).1 := by
  have hnew := Workspace.sourced_new files args.input ⟨args.useMethodId || config.useMethodId⟩
    (Setting.ofTexts (config.options ++ args.options))
  unfold analysed analyseInput
  split
  · exact Workspace.serve_preserves (P := Workspace.Sourced files _)
      (fun _ file hw => hw.analyse file) (.directory args.input _) hnew
  · exact Workspace.analyseAll_preserves (P := Workspace.Sourced files _)
      (fun _ file hw => hw.analyse file) args.files hnew

/-- Where a program was read from: a file of the name that its schema goes by, with the suffix of a
dialect. -/
theorem source_of_program (hprogram : program ∈ (analysed files config args).1.programs) :
    ∃ name node stem extension, files.resolve (Path.join args.input program.file) = .ok name ∧
      files.node? name = some node ∧ node ≠ .directory ∧
      name.getLast? = (Path.parts program.file).getLast? ∧
      extension ∈ ["wproto".toList, "proto".toList] ∧
      (Path.parts program.file).getLast? = some (String.ofList (stem ++ '.' :: extension)) := by
  have hsourced := sourced_analysed files config args
  obtain ⟨id, hid⟩ := mem_iff_getElem?.1 hprogram
  obtain ⟨origin, name, hreads, hfile, -⟩ := hsourced.faithful.read hid
  obtain ⟨hresolve, dialect, source, -, hdialect, hread, -⟩ := hreads.of_setup hsourced.setup.symm
  rw [← hfile] at hresolve hdialect
  obtain ⟨node, hnode, hdirectory⟩ := FileTree.node?_of_readName hread
  obtain ⟨stem, extension, hextension, hlast⟩ := extension_of_dialectOf hdialect
  refine ⟨name, node, stem, extension, hresolve, hnode, hdirectory, ?_, hextension, hlast⟩
  exact (FileTree.last_of_resolve hresolve hread).1.trans (Path.getLast?_parts_join _ _)

/-- The notation of one schema may be written over the source of another: its path ends with the
name of the source, and the source is in protobuf notation itself, or only a dot stands before the
extension of the schema, so that the notation has no name of its own. -/
def Proto.MayReplace (directory file source : String) : Prop :=
  (Path.clean (Path.components (Path.join directory (fileName file)))).getLast? =
      (Path.parts source).getLast?.map .normal ∧
    (Workspace.protobufSuffix.toList <:+ source.toList ∨
      (Path.parts file).getLast? ∈ [some "..wproto", some "..proto"])

theorem Build.spares_path
    {build : Build} {file : String} {name : FileName}
    (h : (Path.clean (Path.components (Path.join build.directory file))).getLast? ≠
      name.getLast?.map .normal) (data : Bytes) :
    Build.Spares name (build.path ⟨file, data⟩) := by
  intro last hends hlast
  refine h ?_
  rw [hlast, Option.map_some, ← hends.getLast?_components, ← Path.components_cleaned]
  rfl

/-- A built-in generator makes one output and leaves the files alone.  The path of the output does
not end with the name of a source that may not be replaced. -/
theorem spares_of_builtIn
    {build : Build} {other : Program} (hprogram : program ∈ (analysed files config args).1.programs)
    (hother : other ∈ (analysed files config args).1.programs) {name : FileName}
    (hname : name.getLast? = (Path.parts program.file).getLast?) {generator : Generator}
    (hbuiltIn : generator ∈ Generator.builtIn)
    (hreplace : generator.name = "toproto" →
      ¬ Proto.MayReplace build.directory other.file program.file)
    (files' : FileTree) (arena : Arena) (id : ProgramId) :
    ∃ output, generator.generate files' arena id other = (files', .ok [output]) ∧
      Build.Spares name (build.path output) := by
  obtain ⟨-, -, stem, extension, -, -, -, -, hextension, hfile⟩ := source_of_program hprogram
  obtain ⟨-, -, stem', extension', -, -, -, -, hextension', hfile'⟩ := source_of_program hother
  have hshape : ∀ e ∈ ["wproto".toList, "proto".toList],
      '.' ∉ e ∧ 2 ≤ e.length ∧ ('.' :: e).getLast? = some 'o' ∧
        some (String.ofList (['.'] ++ '.' :: e)) ∈ [some "..wproto", some "..proto"] := by
    decide
  simp only [Generator.builtIn, mem_cons, not_mem_nil, or_false] at hbuiltIn
  rcases hbuiltIn with rfl | rfl
  · refine ⟨_, rfl, Build.spares_path ?_ _⟩
    have hends : Path.EndsIn (other.file ++ ".json") _ :=
      Path.endsIn_append hfile' (by decide) (by decide)
    obtain ⟨-, -, hend, -⟩ := hshape extension hextension
    rw [hends.getLast?_clean_join, hname, hfile, Option.map_some]
    intro heq
    have hchars := congrArg (fun text : String => text.toList.getLast?)
      (Path.Component.normal.inj (Option.some.inj heq))
    rw [String.toList_ofList, String.toList_append, getLast?_append, getLast?_append,
      hend] at hchars
    simp at hchars
  · refine ⟨_, rfl, Build.spares_path (fun hlast => ?_) _⟩
    rw [hname] at hlast
    refine hreplace rfl ⟨hlast, ?_⟩
    obtain ⟨hdot, hlength, -, hdots⟩ := hshape extension' hextension'
    by_cases hstem : stem' = ['.']
    · exact .inr (hfile' ▸ hstem ▸ hdots)
    · obtain ⟨last, hends, hsuffix⟩ := Proto.endsIn_fileName hdot hlength hfile' hstem
      rw [hends.getLast?_clean_join] at hlast
      obtain ⟨-, chars, -, -, -, hchars⟩ := Path.exists_last_part program.file.toList
      rw [Path.parts, getLast?_map, hchars, Option.map_some, Option.map_some] at hlast
      obtain rfl := Path.Component.normal.inj (Option.some.inj hlast)
      refine .inl ((Path.isSuffixOf_iff_last_part (by decide) hchars).2 ?_)
      rwa [String.toList_ofList] at hsuffix

end Run

/-- A native schema that imports one in protobuf notation. -/
def mixedTree : FileTree where
  here := []
  nodes :=
    [(["a.wproto"], .file (Text.encodeUtf8 "package a\nimport \"b.proto\"\n")),
      (["b.proto"], .file (Text.encodeUtf8 "package b;\n"))]

/-- The arguments that ask for both built-in generators, for the given schemas. -/
def builtInArgs (schemas : List String) : Args where
  config := none
  logLevel := "warn"
  files := schemas
  input := "."
  output := none
  lang := ["printer", "toproto"]
  cmd := []
  options := []
  useMethodId := false
  suffix := none
  mergeSameFile := false

/-- No command can be started. -/
def noCommands : Commands := fun _ _ _ _ => .error (.notStarted .notFound)

-- The notation of a file that is named by dots leads up, here to the source of another one.
example :
    let files : FileTree := ⟨[], [(["..wproto"], .file (Text.encodeUtf8 "package a\n")),
      (["b.wproto"], .file (Text.encodeUtf8 "package b\n"))]⟩
    let args := { builtInArgs ["..wproto", "b.wproto"] with
      output := some "b.wproto/x", lang := ["toproto"] }
    writtenPaths noCommands files .default args = ["b.wproto"] ∧
      (generate noCommands files .default args).1.node? ["b.wproto"] ≠
        files.node? ["b.wproto"] := by
  decide +kernel

end Idl

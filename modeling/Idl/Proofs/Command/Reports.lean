import Idl.Proofs.Build.Collection
import Idl.Proofs.Command.Sources
import Idl.Proofs.Token.Ranges
import Idl.Proofs.Workspace.Ranges
import Idl.Report

/-!
# Reports of a failure

A chain of imports is reported from its far end.  That comes to the same as reporting first what
an import failed for and then the import.  Nothing fails without a report: a text is refused with at
least one diagnostic, failures are taken together only if there are any, and all else has a report
of its own.
-/

namespace Idl

open List

variable {failure : Failure} {files : FileTree} {commands : Commands}

/-! ## Reports one after the other -/

namespace Failure

mutual

/-- The reports of a failure, part by part: of what an import failed for first, then of
the import. -/
def listed : Failure → List Report
  | parse diagnostics _ _ => diagnostics.map (·.report)
  | imported file importer cause => cause.listed ++ [(imported file importer cause).report]
  | multiple failures => listedAll failures
  | failure => [failure.report]

def listedAll : List Failure → List Report
  | [] => []
  | failure :: failures => failure.listed ++ listedAll failures

end

/-- The far end of a chain and then its imports, the last one first: these are the reports of
whatever the chain begins with. -/
theorem reports_innermost_append_levels (failure : Failure) :
    failure.innermost.1.reports ++ failure.levels.reverse.map (·.report) = failure.reports := by
  cases failure with
  | imported file importer cause =>
    rw [reports]
    rfl
  | _ => simp [innermost, levels]

theorem reports_imported (file importer : String) (cause : Failure) :
    (imported file importer cause).reports =
      cause.reports ++ [(imported file importer cause).report] := by
  rw [reports, levels, reverse_cons, map_append, ← append_assoc, reports_innermost_append_levels]
  rfl

mutual

theorem reports_eq_listed : ∀ failure : Failure, failure.reports = failure.listed
  | parse diagnostics file source => by rw [reports, listed]
  | imported file importer cause => by rw [reports_imported, listed, cause.reports_eq_listed]
  | multiple failures => by rw [reports, listed, flatMap_reports_eq_listedAll]
  | io _ _ | unsupported _ | generate _ _ | overwrite _ _ _ | unnamedOutput _ | plugin _ _ | wire _
  | config _ => by simp [reports, listed]

theorem flatMap_reports_eq_listedAll :
    ∀ failures : List Failure, failures.flatMap (·.reports) = listedAll failures
  | [] => rfl
  | failure :: failures => by
    rw [flatMap_cons, listedAll, failure.reports_eq_listed, flatMap_reports_eq_listedAll]

end

/-! ## Something to report -/

/-- There is a report of the failure. -/
def IsReported (failure : Failure) : Prop := failure.reports ≠ []

theorem isReported_io (path : String) (fault : FileFault) : IsReported (io path fault) := by
  simp [IsReported, reports]

theorem isReported_config (fault : ConfigFault) : IsReported (config fault) := by
  simp [IsReported, reports]

theorem isReported_imported (file importer : String) (cause : Failure) :
    IsReported (imported file importer cause) := by
  simp [IsReported, reports_imported]

theorem isReported_parse {diagnostics : List Diagnostic} (h : diagnostics ≠ [])
    (file source : String) :
    IsReported (parse diagnostics file source) := by
  simpa [IsReported, reports] using h

/-- If there is no report of failures that are taken together, there is none of one of them. -/
theorem exists_unreported_of_collect
    {failures : List Failure} (h : collect failures = .error failure)
    (hfailure : ¬failure.IsReported) : ∃ part ∈ failures, ¬part.IsReported := by
  unfold collect at h
  split at h
  · cases h
  · cases h
    exact ⟨failure, mem_singleton.2 rfl, hfailure⟩
  next hnil hone =>
    cases h
    obtain ⟨first, more, rfl⟩ := exists_cons_of_ne_nil hnil
    refine ⟨first, mem_cons_self, ?_⟩
    simp only [IsReported, ne_eq, not_not, reports, flatMap_eq_nil_iff] at hfailure ⊢
    exact hfailure first mem_cons_self

end Failure

/-! ## Analysis -/

theorem Dialect.ends_parse_ne_nil (dialect : Dialect) (config : ParseConfig) (source : String) :
    Ends (fun _ => True) (fun diagnostics => diagnostics ≠ []) (dialect.parse config source) := by
  unfold Dialect.parse
  have htokens := Ends.of_faults fun faults (h : Lexer.tokenize source.toList = .error faults) =>
    (Lexer.exists_of_tokenize_error h).1
  refine htokens.bind fun tokens _ => ?_
  have hbuilt := (Ends.of_faults (x := dialect.build config tokens) fun d _ => trivial).mapError
    (S := fun diagnostics => diagnostics ≠ []) (f := ([·])) fun d _ => cons_ne_nil d []
  exact hbuilt.bind fun schema _ => .ok trivial

namespace Workspace

variable {files : FileView} {w w' : Workspace} {task : Task} {read : List FileName} {depth : Nat}
  {result : Except Failure ProgramId} {failure : Failure}

theorem ends_parse_isReported (w : Workspace) (dialect : Dialect) (file source : String) :
    Ends (fun _ => True) Failure.IsReported (w.parse dialect file source) := by
  unfold parse
  refine ((dialect.ends_parse_ne_nil w.config source).mapError fun diagnostics h =>
    Failure.isReported_parse h file source).bind fun schema _ => ?_
  refine ((Ends.of_faults fun clash _ => trivial).mapError fun clash _ =>
    Failure.isReported_parse (cons_ne_nil _ _) file source).bind fun _ _ => ?_
  split
  · exact .ok trivial
  · exact .error (Failure.isReported_parse (cons_ne_nil _ _) file source)

theorem ends_readProgram_isReported (w : Workspace) (file : String) (name : FileName) :
    Ends (fun _ => True) Failure.IsReported (w.readProgram files file name) := by
  have hdialect : Ends (fun _ => True) Failure.IsReported (w.dialectOf file) := by
    unfold dialectOf
    split
    · exact .ok trivial
    · exact .error (by simp [Failure.IsReported, Failure.reports])
  refine hdialect.bind fun dialect _ => ?_
  refine ((Ends.of_faults fun fault _ => trivial).mapError fun fault _ =>
    Failure.isReported_io _ fault).bind
    fun source _ => ?_
  exact (w.ends_parse_isReported dialect file source).bind fun program _ => .ok trivial

theorem ends_linkAt_isReported (w : Workspace) (id : ProgramId) (source : String) :
    Ends (fun _ => True) Failure.IsReported (w.linkAt id source) := by
  unfold linkAt
  split
  · exact .ok trivial
  · unfold linkProgram
    refine ((Ends.of_faults fun fault _ => trivial).mapError fun fault _ =>
      Failure.isReported_parse (cons_ne_nil _ _) _ source).bind fun program _ => ?_
    dsimp only
    split
    · exact .ok trivial
    · exact .error (Failure.isReported_parse (cons_ne_nil _ _) _ source)

theorem Run.isReported (h : Run files w task read depth w' result)
    (hresult : result = .error failure) :
    failure.IsReported := by
  induction h generalizing failure with
  | known | renamed | loaded | followed => cases hresult
  | lost => exact Except.error.inj hresult ▸ Failure.isReported_io _ _
  | refused _ hread =>
    obtain rfl := Except.error.inj hresult
    exact (ends_readProgram_isReported _ _ _).of_error hread
  | unlinked _ _ _ hlink =>
    obtain rfl := Except.error.inj hresult
    exact (ends_linkAt_isReported _ _ _).of_error hlink
  | broken _ _ _ ih => exact ih hresult
  | bound _ _ _ ihrest => exact ihrest hresult
  | stopped => exact Except.error.inj hresult ▸ Failure.isReported_imported _ _ _

theorem isReported_of_analyse {file : String} (h : (w.analyse files file).2 = .error failure) :
    failure.IsReported := by
  obtain ⟨read, depth, hrun⟩ := exists_run_analyse files w file
  exact hrun.isReported h

theorem isReported_of_analyseAll {items : List String}
    (h : (w.analyseAll files items).2 = .error failure) : failure.IsReported := by
  induction items generalizing w with
  | nil => cases h
  | cons file items ih =>
    rw [analyseAll] at h
    split at h
    next w₁ cause hfirst =>
      obtain rfl := Except.error.inj h
      exact isReported_of_analyse (congrArg Prod.snd hfirst)
    next w₁ id hfirst =>
      split at h
      next w₂ cause hrest =>
        obtain rfl := Except.error.inj h
        exact ih (congrArg Prod.snd hrest)
      next => cases h

theorem isReported_of_analyseDirectory {directory suffix : String}
    (h : (w.analyseDirectory files directory suffix).2 = .error failure) : failure.IsReported := by
  unfold analyseDirectory at h
  dsimp only at h
  split at h
  next w₁ cause fault hall =>
    obtain rfl := Except.error.inj h
    exact isReported_of_analyseAll (congrArg Prod.snd hall)
  next => exact Except.error.inj h ▸ Failure.isReported_io _ _
  next => cases h

end Workspace

/-! ## Builds -/

theorem Plugin.isReported_of_run
    {plugin : Plugin} {request : BuildRequest}
    (h : (plugin.run commands files request).2 = .error failure) :
    failure.IsReported := by
  unfold run at h
  split at h
  next =>
    cases h
    simp [Failure.IsReported, Failure.reports]
  next finished _ =>
    dsimp only at h
    split at h
    · cases hdecode : BuildResponse.decode finished.output with
      | ok response =>
        rw [hdecode] at h
        cases h
      | error fault =>
        rw [hdecode] at h
        cases h
        simp [Failure.IsReported, Failure.reports]
    all_goals
      cases h
      simp [Failure.IsReported, Failure.reports]

namespace Generator

/-- A generator that comes with the program: a built-in one, or that of a plugin. -/
def IsOwn (generator : Generator) : Prop :=
  generator ∈ builtIn ∨ ∃ (commands : Commands) (plugin : Plugin),
    generator = plugin.generator commands

theorem IsOwn.isReported
    {generator : Generator} (h : generator.IsOwn) {arena : Arena} {id : ProgramId}
    {program : Program}
    (hfailure : (generator.generate files arena id program).2 = .error failure) :
    failure.IsReported := by
  rcases h with h | ⟨commands, plugin, rfl⟩
  · simp only [builtIn, mem_cons, not_mem_nil, or_false] at h
    rcases h with rfl | rfl <;> cases hfailure
  · cases hrun : (plugin.run commands files (Plugin.request arena id program)).2 with
    | ok response =>
      simp only [Plugin.generator, hrun] at hfailure
      cases hfailure
    | error cause =>
      simp only [Plugin.generator, hrun] at hfailure
      cases hfailure
      exact Plugin.isReported_of_run hrun

end Generator

theorem Registry.ends_ofNames (commands : Commands) (names plugins : List String) :
    Ends (fun _ => True) Failure.IsReported (ofNames commands names plugins) := by
  unfold ofNames
  refine (Ends.mapM (P := fun _ => True) (fun name => ?_) names).bind fun chosen _ => ?_
  · split
    · exact .ok trivial
    · exact .error (Failure.isReported_config _)
  refine (Ends.mapM (P := fun _ => True) (fun text => ?_) plugins).bind fun made _ => .ok trivial
  unfold Plugin.ofText
  split
  · exact .error (Failure.isReported_config _)
  · exact .ok trivial

theorem Registry.isOwn_of_ofNames
    {names plugins : List String} {registry : Registry}
    (h : ofNames commands names plugins = .ok registry) :
    ∀ generator ∈ registry.map (·.2), generator.IsOwn := by
  intro generator hgenerator
  rcases cases_of_ofNames h generator hgenerator with ⟨hbuiltIn, -⟩ | ⟨-, -, plugin, -, hplugin⟩
  · exact .inl hbuiltIn
  · exact .inr ⟨commands, plugin, hplugin⟩

namespace Build

variable {build : Build} {files : FileTree} {ids : List ProgramId} {failure : Failure}

/-- Of all that is complained about, only what a generator has failed for can lack a report. -/
theorem exists_outcome_of_unreported
    (h : failure ∈ (build.collect files ids).failures) (hfailure : ¬failure.IsReported) :
    ∃ outcome ∈ build.outcomes files ids, outcome.result = .error failure := by
  rw [(gathered_collect build files ids).failures] at h
  obtain ⟨⟨event, place⟩, hevent, hcomplaint⟩ := mem_filterMap.1 h
  obtain ⟨outcome, houtcome, hmem⟩ :=
    mem_flatMap.1 (mem_of_getElem? (mem_zipIdx_iff_getElem?.1 hevent))
  refine ⟨outcome, houtcome, ?_⟩
  unfold Outcome.events at hmem
  split at hmem
  next cause hcause =>
    obtain rfl := mem_singleton.1 hmem
    rw [hcause, Option.some.inj hcomplaint]
  next outputs houtputs =>
    obtain ⟨output, -, rfl⟩ := mem_map.1 hmem
    refine absurd ?_ hfailure
    simp only [complaint?] at hcomplaint
    split at hcomplaint
    · cases hcomplaint
      simp [Failure.IsReported, Failure.reports]
    · split at hcomplaint
      · cases hcomplaint
      · obtain ⟨first, -, rfl⟩ := Option.map_eq_some_iff.1 hcomplaint
        simp [Failure.IsReported, Failure.reports]

theorem isReported_of_writeOne {path : List Path.Component} {data : Bytes}
    (h : (writeOne files path data).2 = .error failure) : failure.IsReported := by
  unfold writeOne at h
  dsimp only at h
  split at h
  · exact Except.error.inj h ▸ Failure.isReported_io _ _
  · split at h
    · exact Except.error.inj h ▸ Failure.isReported_io _ _
    · cases h

theorem isReported_of_writeAll
    {outputs : List (List Path.Component × Pending)} (h : failure ∈ (writeAll files outputs).2.2) :
    failure.IsReported := by
  induction outputs generalizing files with
  | nil => cases h
  | cons output outputs ih =>
    unfold writeAll at h
    dsimp only at h
    split at h
    next => exact ih h
    next cause hcause =>
      rcases mem_cons.1 h with rfl | h
      · exact isReported_of_writeOne hcause
      · exact ih h

/-- If there is no report of what a build failed for, then none of what a generator failed for in
this build. -/
theorem exists_unreported_outcome_of_run
    (h : (build.run files ids).2 = .error failure) (hfailure : ¬failure.IsReported) :
    ∃ outcome ∈ build.outcomes files ids, ∃ cause, outcome.result = .error cause ∧
      ¬cause.IsReported := by
  unfold run at h
  dsimp only at h
  split at h
  next => cases h
  next cause hcollect =>
    obtain rfl := Except.error.inj h
    obtain ⟨part, hpart, hunreported⟩ := Failure.exists_unreported_of_collect hcollect hfailure
    rcases mem_append.1 hpart with hpart | hpart
    · obtain ⟨outcome, houtcome, hresult⟩ := exists_outcome_of_unreported hpart hunreported
      exact ⟨outcome, houtcome, part, hresult, hunreported⟩
    · exact absurd (isReported_of_writeAll hpart) hunreported

theorem isReported_of_run
    (hregistry : ∀ generator ∈ build.registry.map (·.2), generator.IsOwn)
    (h : (build.run files ids).2 = .error failure) : failure.IsReported := by
  by_contra hfailure
  obtain ⟨outcome, houtcome, cause, hcause, hunreported⟩ :=
    exists_unreported_outcome_of_run h hfailure
  obtain ⟨job, hjob, files', hresult⟩ := exists_job_of_mem_outcomesOf houtcome
  obtain ⟨-, -, hgenerator⟩ := mem_jobs_iff.1 hjob
  exact hunreported ((hregistry _ hgenerator).isReported (hresult.trans hcause))

end Build

/-! ## The command -/

theorem isReported_of_planned
    {config : GenerateConfig} {args : Args}
    (h : planned commands files config args = .error failure) : failure.IsReported := by
  have hends : Ends (fun _ => True) Failure.IsReported (planned commands files config args) := by
    unfold planned
    refine (Registry.ends_ofNames _ _ _).bind fun registry _ => ?_
    split
    · exact .error (Failure.isReported_config _)
    · refine (Ends.of_faults fun cause hcause => ?_).bind fun ids _ => .ok trivial
      unfold analysed analyseInput at hcause
      split at hcause
      · exact Workspace.isReported_of_analyseDirectory hcause
      · exact Workspace.isReported_of_analyseAll hcause
  exact hends.of_error h

theorem isReported_of_generate
    {config : GenerateConfig} {args : Args}
    (h : (generate commands files config args).2 = .error failure) : failure.IsReported := by
  rcases generate_cases commands files config args with ⟨cause, hplanned, hgenerate⟩ |
    ⟨build, ids, hplanned, hgenerate⟩
  · rw [hgenerate] at h
    cases h
    exact isReported_of_planned hplanned
  · rw [hgenerate] at h
    exact Build.isReported_of_run (Registry.isOwn_of_ofNames (of_planned hplanned).1) h

end Idl

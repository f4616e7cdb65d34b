import Idl.Proofs.Analysis.Ranges
import Idl.Proofs.Grammar.Ranges
import Idl.Proofs.Workspace.Requests

/-!
# Reported ranges

A file is refused with its own name and its own text, even if this happens while another file is
analysed that imports it, and even if its imports have been followed in between.  The main statement
is that every range that is reported lies in the text it is reported with.
-/

namespace Idl

variable {source file : String} {program : Program} {failure : Failure} {name : FileName}
  {i : ProgramId} {d : Diagnostic}

/-- Every range that the diagnostic marks lies in the text. -/
def Diagnostic.InText (source : String) (d : Diagnostic) : Prop :=
  ∀ label ∈ d.labels, label.span.InText source

theorem Diagnostic.inText_of_aligned (h : ∀ label ∈ d.labels, label.span.Aligned source.toList) :
    d.InText source :=
  fun label hlabel => (h label hlabel).inText

namespace Workspace

variable {files : FileView} {w w' : Workspace} {task : Task} {read : List FileName} {depth : Nat}
  {result : Except Failure ProgramId}

/-! ## Failures of one file -/

/-- The failure refuses the text of a file, at ranges of the text. -/
def Refuses (file source : String) (failure : Failure) : Prop :=
  ∃ diagnostics, failure = .parse diagnostics file source ∧ ∀ d ∈ diagnostics, d.InText source

theorem refuses_one (h : ∀ label ∈ d.labels, label.span.Aligned source.toList) :
    Refuses file source (.parse [d] file source) :=
  ⟨[d], rfl, List.forall_mem_singleton.2 (Diagnostic.inText_of_aligned h)⟩

/-- A text makes a program whose places are ranges of the text, or it is refused. -/
theorem ends_parse (w : Workspace) (dialect : Dialect) (file source : String) :
    Ends (fun program => program.file = file ∧ Placed source.toList Schema.relabel program.schema)
      (Refuses file source) (w.parse dialect file source) := by
  unfold parse
  refine ((dialect.ends_parse w.config source).and_eq.mapError fun diagnostics h => ?_).bind
    fun schema ⟨hschema, hparse⟩ => ?_
  · exact ⟨diagnostics, rfl, h⟩
  · obtain ⟨hpackage, himports, hoptions, hmore⟩ := Schema.placed_iff.1 hschema
    let applied : Schema := { schema with options := Setting.applyAll w.settings schema.options }
    have happlied : Placed source.toList Schema.relabel applied :=
      Schema.placed_iff.2 ⟨hpackage, himports, Setting.placed_applyAll hoptions w.settings, hmore⟩
    refine ((Schema.ends_checkImports happlied).mapError fun clash hclash => ?_).bind fun _ _ => ?_
    · exact refuses_one (Clash.aligned_labels hclash)
    · split
      next program hchecked =>
        rw [checkDefinitions_eq_none hchecked]
        exact .ok ⟨rfl, happlied⟩
      next _ clash hchecked =>
        have hids := idsApart_of_parse hparse
        have hclash := Schema.aligned_of_checkDefinitions happlied hids
          (congrArg Prod.snd hchecked)
        exact .error (refuses_one (Clash.aligned_labels hclash))

/-- A program whose places are ranges of a text is linked, or refused with the text. -/
theorem ends_linkProgram
    (h : Placed source.toList Schema.relabel program.schema) (w : Workspace) (id : ProgramId) :
    Ends (fun _ => True) (Refuses program.file source) (w.linkProgram id program source) := by
  unfold linkProgram
  refine ((Program.ends_linkImports h w.programs).mapError fun fault hfault => ?_).bind
    fun linked ⟨_, hschema⟩ => ?_
  · exact refuses_one hfault
  · rw [← hschema] at h
    dsimp only
    split
    next => exact .ok trivial
    next _ fault hfault =>
      have hname := Program.aligned_of_bindReferences h (congrArg Prod.snd hfault)
      exact .error (refuses_one (Diagnostic.forall_labels fault.labels_diagnostic hname))

/-! ## Failures of a run -/

theorem programs_add
    (h : w.programs[i]? = some program) (file : String) (name : FileName) (other : Program) :
    (w.add file name other).programs[i]? = some program :=
  (List.getElem?_append_left (lt_of_getElem? h)).trans h

/-- No run changes a program that is there, apart from what its imports are bound to. -/
theorem Run.exists_forget_eq
    (h : Run files w task read depth w' result) (hprogram : w.programs[i]? = some program) :
    ∃ program', w'.programs[i]? = some program' ∧ program'.forget = program.forget := by
  induction h generalizing program with
  | known | lost | renamed | refused | followed => exact ⟨program, hprogram, rfl⟩
  | loaded _ _ _ hlink ih =>
    have hlt := lt_of_getElem? hprogram
    obtain ⟨program', hprogram', hforget⟩ := ih (programs_add hprogram _ _ _)
    obtain ⟨programs, rfl, -, hsame⟩ := linkAt_eq_ok hlink
    exact ⟨program', (hsame i hlt.ne).trans hprogram', hforget⟩
  | unlinked _ _ _ _ ih | broken _ _ _ ih =>
    have hlt := lt_of_getElem? hprogram
    obtain ⟨program', hprogram', hforget⟩ := ih (programs_add hprogram _ _ _)
    exact ⟨program', (List.getElem?_take_of_lt hlt).trans hprogram', hforget⟩
  | @bound _ w₁ _ _ _ id target index _ _ _ _ _ _ _ _ ihfirst ihrest =>
    obtain ⟨program₁, hprogram₁, hforget₁⟩ := ihfirst hprogram
    have hbind : Extends files (some id) w₁ (w₁.bindImport id index target) :=
      extends_bindImport w₁ id index target
    obtain ⟨program₂, hprogram₂, hforget₂, -⟩ := hbind.programs hprogram₁
    obtain ⟨program₃, hprogram₃, hforget₃⟩ := ihrest hprogram₂
    exact ⟨program₃, hprogram₃, hforget₃.trans (hforget₂.trans hforget₁)⟩
  | stopped _ ih => exact ih hprogram

theorem placed_forget_iff {text : List Char} :
    Placed text Schema.relabel program.forget.schema ↔
      Placed text Schema.relabel program.schema := by
  simp [Schema.placed_iff, Program.forget, Import.placed_iff, Import.forget]

/-- If the failure, or what it was caused by, refuses a text, then the text is that of the file
which is named, and every range that is reported lies in it. -/
def PointsInto (files : FileView) (base : String) (failure : Failure) : Prop :=
  ∀ diagnostics file source, failure.innermost.1 = .parse diagnostics file source →
    (∃ name, files.resolve (Path.join base file) = .ok name ∧ files.readName name = .ok source) ∧
      ∀ d ∈ diagnostics, d.InText source

/-- The failure is that of one file: it is not wrapped, and if it refuses a text, then that of the
file, at ranges of the text. -/
structure Stops (files : FileView) (file : String) (name : FileName) (failure : Failure) :
    Prop where
  innermost : failure.innermost = (failure, [])
  text : ∀ diagnostics reported source, failure = .parse diagnostics reported source →
    reported = file ∧ files.readName name = .ok source ∧ ∀ d ∈ diagnostics, d.InText source

theorem Refuses.stops
    (h : Refuses file source failure) (hsource : files.readName name = .ok source) :
    Stops files file name failure := by
  obtain ⟨diagnostics, rfl, hdiagnostics⟩ := h
  refine ⟨rfl, ?_⟩
  rintro _ _ _ ⟨⟩
  exact ⟨rfl, hsource, hdiagnostics⟩

theorem Stops.pointsInto
    (h : Stops files file name failure) {base : String}
    (hresolve : files.resolve (Path.join base file) = .ok name) :
    PointsInto files base failure := by
  intro diagnostics reported source hcause
  rw [h.innermost] at hcause
  obtain ⟨rfl, hsource, hdiagnostics⟩ := h.text diagnostics reported source hcause
  exact ⟨⟨name, hresolve, hsource⟩, hdiagnostics⟩

theorem ends_readProgram (w : Workspace) (file : String) (name : FileName) :
    Ends (fun found => found.1.file = file ∧ files.readName name = .ok found.2 ∧
        Placed found.2.toList Schema.relabel found.1.schema)
      (Stops files file name) (w.readProgram files file name) := by
  have hdialect : Ends (fun _ => True) (Stops files file name) (w.dialectOf file) := by
    unfold dialectOf
    split
    · exact .ok trivial
    · exact .error ⟨rfl, nofun⟩
  refine hdialect.bind fun dialect _ => ?_
  cases hsource : files.readName name with
  | error fault => exact .error ⟨rfl, nofun⟩
  | ok source =>
    refine ((w.ends_parse dialect file source).mono (fun _ h => h) fun _ hrefused => ?_).bind
      fun program h => ?_
    · exact hrefused.stops hsource
    · exact .ok ⟨h.1, rfl, h.2⟩

/-- A program that was registered is linked as it was read, with its imports bound, so it is refused
with the text it was read from. -/
theorem Run.stops_of_linkAt
    (hread : w.readProgram files file name = .ok (program, source))
    (hfollow : Run files (w.add file name program) task read depth w' result)
    (hlink : w'.linkAt w.programs.length source = .error failure) :
    Stops files file name failure := by
  obtain ⟨hfile, hsource, hplaced⟩ := (ends_readProgram w file name).of_ok hread
  have hadded : (w.add file name program).programs[w.programs.length]? = some program :=
    List.getElem?_concat_length
  obtain ⟨program', hprogram', hforget⟩ := hfollow.exists_forget_eq hadded
  have hplaced' : Placed source.toList Schema.relabel program'.schema := by
    rwa [← placed_forget_iff, hforget, placed_forget_iff]
  have hfile' : program'.file = file := (congrArg (·.file) hforget).trans hfile
  rw [linkAt, program?, hprogram'] at hlink
  exact Refuses.stops (hfile' ▸ (ends_linkProgram hplaced' w' _).of_error hlink) hsource

/-- Whatever a run fails for, what is reported lies in the text it is reported with. -/
theorem Run.pointsInto
    (h : Run files w task read depth w' result) (hresult : result = .error failure) :
    PointsInto files w.base failure := by
  induction h generalizing failure with
  | known | renamed | loaded | followed => cases hresult
  | lost => exact Except.error.inj hresult ▸ nofun
  | refused hfresh hread =>
    obtain rfl := Except.error.inj hresult
    exact ((ends_readProgram _ _ _).of_error hread).pointsInto hfresh.resolves
  | unlinked hfresh hread hfollow hlink =>
    obtain rfl := Except.error.inj hresult
    exact (hfollow.stops_of_linkAt hread hlink).pointsInto hfresh.resolves
  | broken _ _ _ ih => exact ih hresult
  | bound hfirst _ _ ihrest =>
    have hbase := base_eq_of_setup hfirst.setup_eq
    exact hbase ▸ ihrest hresult
  | stopped _ ih =>
    obtain rfl := Except.error.inj hresult
    exact fun diagnostics file source hcause => ih rfl diagnostics file source hcause

/-- Every range that is reported lies in the text it is reported with: it does not end before it
starts, nor beyond the last byte, and it starts on a character boundary.  This holds of what either
dialect refuses, and of what the analysis of a file reports, be it of the file itself or of one that
it imports; there the text is that of the file which is named. -/
theorem reported_ranges_in_source :
    (∀ (dialect : Dialect) (config : ParseConfig) (source : String) (diagnostics : List Diagnostic),
      dialect.parse config source = .error diagnostics → ∀ d ∈ diagnostics, d.InText source) ∧
    ∀ (files : FileView) (w : Workspace) (file : String) (failure : Failure)
      (diagnostics : List Diagnostic) (reported source : String),
      (w.analyse files file).2 = .error failure →
      failure.innermost.1 = .parse diagnostics reported source →
      (∃ name, files.resolve (Path.join w.base reported) = .ok name ∧
        files.readName name = .ok source) ∧ ∀ d ∈ diagnostics, d.InText source := by
  constructor
  · intro dialect config source diagnostics h
    exact (dialect.ends_parse config source).of_error h
  · intro files w file failure diagnostics reported source hresult hcause
    obtain ⟨read, depth, hrun⟩ := exists_run_analyse files w file
    exact hrun.pointsInto hresult diagnostics reported source hcause

/-- Two files that import each other.  The second uses a type that the first does not declare,
behind a comment with a character of two bytes. -/
def accentedCycle : FileTree where
  here := []
  nodes :=
    [(["a.wproto"], .file (Text.encodeUtf8 "package a\nimport \"b.wproto\"\n")),
      (["b.wproto"], .file (Text.encodeUtf8
        "package b\nimport \"a.wproto\"\nmessage mb \x7b\n  // é\n  a.ma back = 1\n\x7d\n"))]

/-- The ranges that are reported. -/
def reportedRanges (diagnostics : List Diagnostic) : List Span :=
  (diagnostics.flatMap (·.labels)).map (·.span)

/-- The ranges that are reported of a text. -/
def rangesOf? : Except (List Diagnostic) Schema → Option (List Span)
  | .ok _ => none
  | .error diagnostics => some (reportedRanges diagnostics)

/-- The file that was refused, and the ranges that are reported. -/
def refused? : Except Failure ProgramId → Option (String × List Span)
  | .ok _ => none
  | .error failure =>
    match failure.innermost.1 with
    | .parse diagnostics file _ => some (file, reportedRanges diagnostics)
    | _ => none

/-- A character of two bytes that begins no token is marked up to its middle. -/
theorem reported_ranges_in_source_accented :
    (∃ diagnostics, Dialect.native.parse ⟨false⟩ "é" = .error diagnostics ∧
      reportedRanges diagnostics = [.between 0 1] ∧ ∀ d ∈ diagnostics, d.InText "é") ∧
    ∃ failure diagnostics source,
      ((new "" ⟨false⟩ []).analyse accentedCycle "a.wproto").2 = .error failure ∧
      failure.innermost.1 = .parse diagnostics "b.wproto" source ∧
      reportedRanges diagnostics = [.between 51 55] ∧
      (∃ name, accentedCycle.resolve (Path.join "" "b.wproto") = .ok name ∧
        accentedCycle.readName name = .ok source) ∧ ∀ d ∈ diagnostics, d.InText source := by
  constructor
  · have hranges : rangesOf? (Dialect.native.parse ⟨false⟩ "é") = some [.between 0 1] := by
      decide +kernel
    unfold rangesOf? at hranges
    split at hranges
    next => cases hranges
    next diagnostics hparse =>
      exact ⟨diagnostics, hparse, Option.some.inj hranges,
        reported_ranges_in_source.1 _ _ _ diagnostics hparse⟩
  · have hrefused : refused? ((new "" ⟨false⟩ []).analyse accentedCycle "a.wproto").2 =
        some ("b.wproto", [.between 51 55]) := by
      decide +kernel
    unfold refused? at hrefused
    split at hrefused
    next => cases hrefused
    next failure hresult =>
      split at hrefused
      next diagnostics file source hcause =>
        obtain ⟨rfl, hranges⟩ := Prod.mk.inj (Option.some.inj hrefused)
        exact ⟨failure, diagnostics, source, hresult, hcause, hranges,
          reported_ranges_in_source.2 accentedCycle (new "" ⟨false⟩ []) "a.wproto" failure
            diagnostics _ source hresult hcause⟩
      next => cases hrefused

end Workspace

end Idl

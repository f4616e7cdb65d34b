import Idl.Build
import Idl.Proofs.FirstOccurrence

/-!
# What a build collects

The jobs of a build are its generators on its programs.  What they come to is a sequence of events:
a job that fails, or one output after the other.  What is collected is read off that sequence.
Every path that a named output goes to is there once, in the order in which the paths first came,
and every event that cannot be followed is complained about once, in its place.
-/

namespace Idl

open List

variable {product : Product}

namespace Build

/-! ## Jobs and what they come to -/

/-- A generator that is to run on a program. -/
structure Job where
  id : ProgramId
  program : Program
  generator : Generator

/-- The jobs of a build, program by program, and generator by generator. -/
def jobs (build : Build) (ids : List ProgramId) : List Job :=
  ids.flatMap fun id => (build.programs[id]?).toList.flatMap fun program =>
    build.registry.map fun entry => ⟨id, program, entry.2⟩

/-- What a job came to. -/
structure Outcome where
  origin : Origin
  result : Except Failure (List Output)

def Outcome.succeeded (outcome : Outcome) : Bool := outcome.result.isOk

/-- What jobs come to that are run one after the other, each on the files as the last one left
them. -/
def outcomesOf (programs : Arena) : FileTree → List Job → List Outcome
  | _, [] => []
  | files, job :: jobs =>
    let (files, result) := job.generator.generate files programs job.id job.program
    ⟨⟨job.generator.name, job.program.file⟩, result⟩ :: outcomesOf programs files jobs

/-- What the jobs of a build come to, in the order of generation. -/
def outcomes (build : Build) (files : FileTree) (ids : List ProgramId) : List Outcome :=
  outcomesOf build.programs files (build.jobs ids)

/-- An output with the job that made it. -/
structure Product where
  origin : Origin
  output : Output

inductive Event
  | failed (failure : Failure)
  | made (product : Product)

/-- A job that fails makes no output. -/
def Outcome.events (outcome : Outcome) : List Event :=
  match outcome.result with
  | .error failure => [.failed failure]
  | .ok outputs => outputs.map fun output => .made ⟨outcome.origin, output⟩

/-! ## What is due -/

/-- The outputs that have a name, in order. -/
def products (events : List Event) : List Product :=
  events.filterMap fun
    | .failed _ => none
    | .made product => if product.output.file = "" then none else some product

variable (build : Build)

/-- The outputs that go to a path, in order. -/
def productsAt (path : List Path.Component) (events : List Event) : List Product :=
  (products events).filter fun product => build.path product.output = path

/-- What is to be written to a path: all its outputs one behind the other, or the first one.  It is
put down to the job of the first one. -/
def due? (path : List Path.Component) (events : List Event) : Option Pending :=
  (build.productsAt path events).head?.map fun first =>
    { data :=
        if build.merge then (build.productsAt path events).flatMap (·.output.data)
        else first.output.data
      origin := first.origin }

/-- The failure that an event adds behind others: that of its job, that of an output without a name,
or that of an output whose path is taken. -/
def complaint? (before : List Event) : Event → Option Failure
  | .failed failure => some failure
  | .made product =>
    if product.output.file = "" then some (.unnamedOutput product.origin)
    else if build.merge then none
    else (build.productsAt (build.path product.output) before).head?.map fun first =>
      .overwrite product.output.file product.origin first.origin

/-- What is collected is what the events ask for. -/
structure Gathered (events : List Event) (collected : Collected) : Prop where
  paths : collected.outputs.map (·.1) =
    ((products events).map fun product => build.path product.output).eraseDups
  pending : ∀ path, collected.outputs.lookup path = build.due? path events
  failures : collected.failures =
    events.zipIdx.filterMap fun (event, place) => build.complaint? (events.take place) event

variable {build} {events : List Event} {collected : Collected} {path : List Path.Component}

/-! ## One event more -/

theorem productsAt_concat_failed (failure : Failure) :
    build.productsAt path (events ++ [.failed failure]) = build.productsAt path events := by
  simp [productsAt, products]

theorem productsAt_concat_unnamed (hname : product.output.file = "") :
    build.productsAt path (events ++ [.made product]) = build.productsAt path events := by
  simp [productsAt, products, hname]

theorem products_concat_made (hname : product.output.file ≠ "") :
    products (events ++ [.made product]) = products events ++ [product] := by
  simp [products, hname]

theorem productsAt_concat_made (hname : product.output.file ≠ "") :
    build.productsAt path (events ++ [.made product]) =
      build.productsAt path events ++ if build.path
        product.output = path then [product] else [] := by
  rw [productsAt, products_concat_made hname, filter_append, productsAt]
  simp only [filter_cons, filter_nil, decide_eq_true_eq]

theorem due?_concat_of_ne
    (hname : product.output.file ≠ "") (hne : build.path product.output ≠ path) :
    build.due? path (events ++ [.made product]) = build.due? path events := by
  rw [due?, productsAt_concat_made hname, if_neg hne, append_nil, due?]

theorem due?_eq_none_iff : build.due? path events = none ↔ build.productsAt path events = [] := by
  rw [due?, Option.map_eq_none_iff, head?_eq_none_iff]

theorem due?_concat_first
    (hname : product.output.file ≠ "")
    (hnone : build.due? (build.path product.output) events = none) :
    build.due? (build.path product.output) (events ++ [.made product]) =
      some ⟨product.output.data, product.origin⟩ := by
  rw [due?, productsAt_concat_made hname, if_pos rfl, due?_eq_none_iff.1 hnone]
  simp

theorem due?_concat_further
    (hname : product.output.file ≠ "") {first : Pending}
    (hfirst : build.due? (build.path product.output) events = some first) :
    build.due? (build.path product.output) (events ++ [.made product]) =
      some { first with
        data := if build.merge then first.data ++ product.output.data else first.data } := by
  rw [due?, Option.map_eq_some_iff] at hfirst
  obtain ⟨earliest, hearliest, rfl⟩ := hfirst
  rw [due?, productsAt_concat_made hname, if_pos rfl, head?_append, hearliest]
  cases build.merge <;> simp

theorem complaint?_made (hname : product.output.file ≠ "") :
    build.complaint? events (.made product) =
      if build.merge then none
      else (build.due? (build.path product.output) events).map fun first =>
        .overwrite product.output.file product.origin first.origin := by
  rw [complaint?, if_neg hname, due?, Option.map_map]
  rfl

theorem complaints_concat (event : Event) :
    ((events ++ [event]).zipIdx.filterMap fun (event', place) =>
        build.complaint? ((events ++ [event]).take place) event') =
      (events.zipIdx.filterMap fun (event', place) =>
        build.complaint? (events.take place) event') ++ (build.complaint? events event).toList := by
  rw [zipIdx_append, filterMap_append]
  congr 1
  · refine filterMap_congr fun entry hentry => ?_
    have hplace : entry.2 < events.length := by
      simpa using snd_lt_add_of_mem_zipIdx hentry
    dsimp only
    rw [take_append_of_le_length (Nat.le_of_lt hplace)]
  · cases h : build.complaint? events event <;> simp [h]

namespace Gathered

theorem start (files : FileTree) : build.Gathered [] (.start files) :=
  ⟨rfl, fun _ => rfl, rfl⟩

theorem withFiles (h : build.Gathered events collected) (files : FileTree) :
    build.Gathered events { collected with files } :=
  ⟨h.paths, h.pending, h.failures⟩

theorem failed (h : build.Gathered events collected) (failure : Failure) :
    build.Gathered (events ++ [.failed failure]) (collected.fail failure) where
  paths := by simpa [products, Collected.fail] using h.paths
  pending path := by
    rw [due?, productsAt_concat_failed]
    exact h.pending path
  failures := by
    rw [complaints_concat, ← h.failures]
    rfl

theorem mem_paths_iff (h : build.Gathered events collected) :
    path ∈ collected.outputs.map (·.1) ↔ build.productsAt path events ≠ [] := by
  rw [h.paths, mem_eraseDups, mem_map, productsAt, Ne, filter_eq_nil_iff]
  simp

theorem nodup_paths (h : build.Gathered events collected) :
    (collected.outputs.map (·.1)).Nodup := by
  rw [h.paths]
  exact nodup_eraseDups _

theorem paths_concat_made (h : build.Gathered events collected) (hname : product.output.file ≠ "") :
    ((products (events ++ [.made product])).map fun product =>
      build.path product.output).eraseDups =
      if build.path product.output ∈ collected.outputs.map (·.1) then collected.outputs.map (·.1)
      else collected.outputs.map (·.1) ++ [build.path product.output] := by
  rw [products_concat_made hname, map_append, map_singleton, eraseDups_concat, h.paths]
  simp only [mem_eraseDups]

theorem unnamed (h : build.Gathered events collected) (hname : product.output.file = "") :
    build.Gathered (events ++ [.made product])
      (collected.fail (.unnamedOutput product.origin)) where
  paths := by simpa [products, hname, Collected.fail] using h.paths
  pending path := by
    rw [due?, productsAt_concat_unnamed hname]
    exact h.pending path
  failures := by
    rw [complaints_concat, ← h.failures, complaint?, if_pos hname]
    rfl

section Named

variable {product : Product} (h : build.Gathered events collected)
  (hname : product.output.file ≠ "")

include h hname

theorem due?_of_ne (hne : path ≠ build.path product.output) :
    build.due? path (events ++ [.made product]) = collected.outputs.lookup path :=
  (due?_concat_of_ne hname hne.symm).trans (h.pending path).symm

/-- The first output for its path. -/
theorem first (hnone : collected.outputs.lookup (build.path product.output) = none) :
    build.Gathered (events ++ [.made product])
      { collected with
        outputs := collected.outputs ++
          [(build.path product.output, ⟨product.output.data, product.origin⟩)] } := by
  have hdue := (h.pending (build.path product.output)).symm.trans hnone
  refine ⟨?_, fun path => ?_, ?_⟩
  · rw [h.paths_concat_made hname, if_neg (Assoc.not_mem_keys_of_lookup_eq_none hnone)]
    simp
  · rw [lookup_append]
    by_cases hpath : path = build.path product.output
    · rw [hpath, hnone, due?_concat_first hname hdue]
      simp
    · rw [h.due?_of_ne hname hpath]
      simp [lookup_cons, beq_false_of_ne hpath]
  · rw [complaints_concat, ← h.failures, complaint?_made hname, hdue]
    simp

/-- A further output for its path, which is put behind what is there. -/
theorem merged
    {first : Pending} (hfirst : collected.outputs.lookup (build.path product.output) = some first)
    (hmerge : build.merge = true) :
    build.Gathered (events ++ [.made product])
      { collected with
        outputs := collected.outputs.put (build.path product.output)
          { first with data := first.data ++ product.output.data } } := by
  have hdue := (h.pending (build.path product.output)).symm.trans hfirst
  have hmem : build.path product.output ∈ collected.outputs.map (·.1) :=
    mem_map_of_mem (Assoc.mem_of_lookup_eq_some hfirst)
  refine ⟨?_, fun path => ?_, ?_⟩
  · rw [h.paths_concat_made hname, if_pos hmem, Assoc.map_fst_put hmem]
  · rw [Assoc.lookup_put]
    by_cases hpath : path = build.path product.output
    · rw [hpath, due?_concat_further hname hdue, if_pos hmerge]
      simp
    · rw [h.due?_of_ne hname hpath]
      simp [hpath]
  · rw [complaints_concat, ← h.failures, complaint?_made hname, if_pos hmerge]
    simp

/-- A further output for its path, which is passed over. -/
theorem passedOver
    {first : Pending} (hfirst : collected.outputs.lookup (build.path product.output) = some first)
    (hmerge : ¬ build.merge = true) :
    build.Gathered (events ++ [.made product])
      (collected.fail (.overwrite product.output.file product.origin first.origin)) := by
  have hdue := (h.pending (build.path product.output)).symm.trans hfirst
  have hmem : build.path product.output ∈ collected.outputs.map (·.1) :=
    mem_map_of_mem (Assoc.mem_of_lookup_eq_some hfirst)
  refine ⟨?_, fun path => ?_, ?_⟩
  · rw [h.paths_concat_made hname, if_pos hmem]
    rfl
  · by_cases hpath : path = build.path product.output
    · rw [hpath, due?_concat_further hname hdue, if_neg hmerge]
      exact hfirst
    · exact (h.due?_of_ne hname hpath).symm
  · rw [complaints_concat, ← h.failures, complaint?_made hname, if_neg hmerge, hdue]
    rfl

end Named

theorem made (h : build.Gathered events collected) (product : Product) :
    build.Gathered (events ++ [.made product])
      (build.add product.origin collected product.output) := by
  unfold Build.add
  split
  next hname => exact h.unnamed (String.isEmpty_iff.1 hname)
  next hname =>
    have hname : product.output.file ≠ "" := fun heq => hname (String.isEmpty_iff.2 heq)
    dsimp only
    split
    next hnone => exact h.first hname hnone
    next first hfirst =>
      split
      next hmerge => exact h.merged hname hfirst hmerge
      next hmerge => exact h.passedOver hname hfirst hmerge

theorem foldl_add (h : build.Gathered events collected) (origin : Origin) (outputs : List Output) :
    build.Gathered (events ++ outputs.map fun output => .made ⟨origin, output⟩)
      (outputs.foldl (build.add origin) collected) := by
  induction outputs generalizing events collected with
  | nil => simpa using h
  | cons output outputs ih => simpa using ih (h.made ⟨origin, output⟩)

theorem runGenerator (h : build.Gathered events collected) (job : Job) :
    build.Gathered
      (events ++ (Outcome.mk ⟨job.generator.name, job.program.file⟩
        (job.generator.generate collected.files build.programs job.id job.program).2).events)
      (build.runGenerator job.id job.program collected job.generator) := by
  unfold Build.runGenerator Outcome.events
  generalize job.generator.generate collected.files build.programs job.id job.program = made
  obtain ⟨files, result⟩ := made
  cases result with
  | error failure => exact (h.withFiles files).failed failure
  | ok outputs => exact (h.withFiles files).foldl_add _ outputs

end Gathered

theorem files_runGenerator (collected : Collected) (job : Job) :
    (build.runGenerator job.id job.program collected job.generator).files =
      (job.generator.generate collected.files build.programs job.id job.program).1 := by
  have hadd : ∀ origin (outputs : List Output) (collected : Collected),
      (outputs.foldl (build.add origin) collected).files = collected.files := by
    intro origin outputs
    induction outputs with
    | nil => exact fun _ => rfl
    | cons output outputs ih =>
      intro collected
      rw [foldl_cons, ih]
      unfold Build.add
      dsimp only
      split
      · rfl
      · split
        · rfl
        · split <;> rfl
  unfold Build.runGenerator
  generalize job.generator.generate collected.files build.programs job.id job.program = made
  obtain ⟨files, result⟩ := made
  cases result with
  | error failure => rfl
  | ok outputs => exact hadd _ outputs _

theorem Gathered.foldl_jobs (h : build.Gathered events collected) (jobs : List Job) :
    build.Gathered
      (events ++ (outcomesOf build.programs collected.files jobs).flatMap Outcome.events)
      (jobs.foldl (fun collected job =>
        build.runGenerator job.id job.program collected job.generator) collected) := by
  induction jobs generalizing events collected with
  | nil => simpa [outcomesOf] using h
  | cons job jobs ih =>
    have hmore := ih (h.runGenerator job)
    rw [files_runGenerator, append_assoc] at hmore
    simpa [outcomesOf] using hmore

theorem collect_eq_foldl_jobs (build : Build) (files : FileTree) (ids : List ProgramId) :
    build.collect files ids = (build.jobs ids).foldl (fun collected job =>
      build.runGenerator job.id job.program collected job.generator) (.start files) := by
  rw [collect, jobs, foldl_flatMap]
  congr 1
  funext collected id
  unfold runProgram
  cases build.programs[id]? with
  | none => rfl
  | some program => simp [foldl_map]

theorem gathered_collect (build : Build) (files : FileTree) (ids : List ProgramId) :
    build.Gathered ((build.outcomes files ids).flatMap Outcome.events)
      (build.collect files ids) := by
  rw [collect_eq_foldl_jobs]
  exact (Gathered.start files).foldl_jobs (build.jobs ids)

theorem mem_jobs_iff {ids : List ProgramId} {job : Job} :
    job ∈ build.jobs ids ↔ job.id ∈ ids ∧ build.programs[job.id]? = some job.program ∧
      job.generator ∈ build.registry.map (·.2) := by
  simp only [jobs, mem_flatMap, Option.mem_toList, mem_map]
  constructor
  · rintro ⟨id, hid, program, hprogram, entry, hentry, rfl⟩
    exact ⟨hid, hprogram, entry, hentry, rfl⟩
  · rintro ⟨hid, hprogram, entry, hentry, hgenerator⟩
    exact ⟨job.id, hid, job.program, hprogram, entry, hentry, by rw [hgenerator]⟩

theorem files_collect
    {files : FileTree} {ids : List ProgramId} (h : ∀ job ∈ build.jobs ids, ∀ files,
      (job.generator.generate files build.programs job.id job.program).1 = files) :
    (build.collect files ids).files = files := by
  rw [collect_eq_foldl_jobs]
  refine List.foldlRecOn (motive := fun collected : Collected => collected.files = files) _ _ rfl ?_
  intro collected hcollected job hjob
  rw [files_runGenerator, h job hjob, hcollected]

theorem exists_job_of_mem_outcomesOf
    {programs : Arena} {files : FileTree} {jobs : List Job} {outcome : Outcome}
    (h : outcome ∈ outcomesOf programs files jobs) :
    ∃ job ∈ jobs, ∃ files', (job.generator.generate files' programs job.id job.program).2 =
      outcome.result := by
  induction jobs generalizing files with
  | nil => cases h
  | cons job jobs ih =>
    rcases mem_cons.1 h with rfl | h
    · exact ⟨job, mem_cons_self, files, rfl⟩
    · obtain ⟨other, hother, hresult⟩ := ih h
      exact ⟨other, mem_cons_of_mem _ hother, hresult⟩

theorem exists_product_of_mem_outputs
    {files : FileTree} {ids : List ProgramId} {entry : List Path.Component × Pending}
    (h : entry ∈ (build.collect files ids).outputs) :
    ∃ product ∈ products ((build.outcomes files ids).flatMap Outcome.events),
      entry.1 = build.path product.output := by
  have hmem := (gathered_collect build files ids).mem_paths_iff.1 (mem_map_of_mem h)
  obtain ⟨product, hproduct⟩ := exists_mem_of_ne_nil _ hmem
  obtain ⟨hproduct, hpath⟩ := mem_filter.1 hproduct
  exact ⟨product, hproduct, (of_decide_eq_true hpath).symm⟩

/-- What is collected was made by one of the jobs. -/
theorem exists_job_of_mem_outputs
    {files : FileTree} {ids : List ProgramId} {entry : List Path.Component × Pending}
    (h : entry ∈ (build.collect files ids).outputs) :
    ∃ job ∈ build.jobs ids, ∃ files' outputs, ∃ output ∈ outputs,
      (job.generator.generate files' build.programs job.id job.program).2 = .ok outputs ∧
        entry.1 = build.path output := by
  obtain ⟨product, hproduct, hpath⟩ := exists_product_of_mem_outputs h
  obtain ⟨event, hevent, hmade⟩ := mem_filterMap.1 hproduct
  obtain ⟨outcome, houtcome, hevent⟩ := mem_flatMap.1 hevent
  obtain ⟨job, hjob, files', hresult⟩ := exists_job_of_mem_outcomesOf houtcome
  unfold Outcome.events at hevent
  split at hevent
  next =>
    obtain rfl := mem_singleton.1 hevent
    cases hmade
  next outputs houtputs =>
    obtain ⟨output, houtput, rfl⟩ := mem_map.1 hevent
    dsimp only at hmade
    split at hmade
    · cases hmade
    · cases hmade
      exact ⟨job, hjob, files', outputs, output, houtput, hresult.trans houtputs, hpath⟩

theorem products_events_filter (outcomes : List Outcome) :
    products ((outcomes.filter Outcome.succeeded).flatMap Outcome.events) =
      products (outcomes.flatMap Outcome.events) := by
  have happend : ∀ first rest, products (first ++ rest) = products first ++ products rest :=
    fun _ _ => filterMap_append
  induction outcomes with
  | nil => rfl
  | cons outcome outcomes ih =>
    rw [filter_cons, flatMap_cons, happend, ← ih]
    split
    · rw [flatMap_cons, happend]
    next hfailed =>
      obtain ⟨origin, result⟩ := outcome
      cases result with
      | error failure => rfl
      | ok outputs => exact absurd rfl hfailed

/-- A build collects every output once.  Every path that a named output goes to has one entry, in
the order of generation; what is due for it and what is complained about is as the events say; and
the entries are those of any build with the same outcomes but for the failed ones. -/
theorem collect_gathers_once (build : Build) (files : FileTree) (ids : List ProgramId) :
    build.Gathered ((build.outcomes files ids).flatMap Outcome.events) (build.collect files ids) ∧
      ∀ (other : Build) (files' : FileTree) (ids' : List ProgramId),
        other.directory = build.directory → other.merge = build.merge →
        other.outcomes files' ids' = (build.outcomes files ids).filter Outcome.succeeded →
        (other.collect files' ids').outputs = (build.collect files ids).outputs := by
  refine ⟨gathered_collect build files ids, ?_⟩
  intro other files' ids' hdirectory hmerge houtcomes
  have hgathered := gathered_collect build files ids
  have hgathered' := gathered_collect other files' ids'
  have hpath : other.path = build.path := by
    funext output
    rw [path, path, hdirectory]
  have hproducts : products ((other.outcomes files' ids').flatMap Outcome.events) =
      products ((build.outcomes files ids).flatMap Outcome.events) := by
    rw [houtcomes, products_events_filter]
  refine Assoc.eq_of_lookup_eq hgathered'.nodup_paths ?_ fun path => ?_
  · rw [hgathered'.paths, hgathered.paths, hproducts, hpath]
  · rw [hgathered'.pending, hgathered.pending]
    simp only [due?, productsAt, hproducts, hpath, hmerge]

/-- A generator that makes the same of every program. -/
def steady (name : String) (result : Except Failure (List Output)) : Generator where
  name := name
  reads := fun _ _ => []
  generate := fun files _ _ _ => (files, result)

/-- A build of one program without declarations. -/
def single (registry : Registry) (merge : Bool) : Build where
  programs := [.ofSchema "a.wproto" ⟨⟨⟨"a", .point 8⟩, .none⟩, [], [], [], [], [], []⟩]
  registry := registry
  directory := "out"
  merge := merge

/-- A failed job, an output without a name and one for a path that is taken. -/
theorem collect_gathers_once_single :
    let outputs : List Output := [⟨"x", [1]⟩, ⟨"", [2]⟩, ⟨"y/../x", [3]⟩, ⟨"y", [4]⟩]
    let failed := steady "f" (.error (.generate ⟨"f", "a.wproto"⟩ "no"))
    let made := steady "m" (.ok outputs)
    let files : FileTree := ⟨[], []⟩
    let build := single [("f", failed), ("m", made)] false
    let other := single [("m", made)] false
    other.outcomes files [0] = (build.outcomes files [0]).filter Outcome.succeeded ∧
      (other.collect files [0]).outputs = (build.collect files [0]).outputs ∧
      (build.collect files [0]).outputs =
        [([.normal "out", .normal "x"], ⟨[1], ⟨"m", "a.wproto"⟩⟩),
          ([.normal "out", .normal "y"], ⟨[4], ⟨"m", "a.wproto"⟩⟩)] ∧
      (build.collect files [0]).failures.length = 3 := by
  intro outputs failed made files build other
  exact ⟨rfl, (collect_gathers_once build files [0]).2 other files [0] rfl rfl
    rfl, by decide +kernel, by decide +kernel⟩

end Build

end Idl

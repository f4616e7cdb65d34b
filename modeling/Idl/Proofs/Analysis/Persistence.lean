import Idl.Proofs.Analysis.Schedule

/-!
# What passes keep

A pass changes a program in one of a few ways, and none of them takes back what an earlier pass has
found out: the package and the names of declarations stay as they are, tables only grow, imports
that are all bound stay bound to the same programs, and what is linked stays linked.  The main
statement is that this holds over passes in any order, whether they fail or not.
-/

namespace Idl

open List

namespace Program

/-! ## One pass -/

/-- What a pass over the arena may make of the program of a number. -/
inductive Step (arena : Arena) (id : ProgramId) (program : Program) : Program → Prop
  | skip : Step arena id program program
  | check (config : ParseConfig) : Step arena id program (program.checkDefinitions config).1
  | set (setting : Setting) :
    Step arena id program { program with
      schema := { program.schema with options := setting.applyTo program.schema.options } }
  | bindImport (index : Nat) (target : ProgramId) :
    Step arena id program { program with schema := (program.schema.bindImport index target).1 }
  | link {linked : Program} (h : program.linkImports arena = .ok linked) :
    Step arena id program linked
  | bind : Step arena id program (program.bindReferences arena id).1
  | describe : Step arena id program { program with descriptor := some (program.fileDesc arena) }

theorem unbind_bindReferences (arena : Arena) (id : ProgramId) (program : Program) :
    (program.bindReferences arena id).1.schema.unbind = program.schema.unbind := by
  have hrebound : Rebound Schema.unbind Schema.Each (fun _ => True) program.schema
      ((program.bindReferences arena id).1.schema, (program.bindReferences arena id).2) :=
    Program.rebound (fun _ _ _ => trivial) (fun _ _ _ => trivial) fun _ _ _ _ _ _ => trivial
  exact hrebound.erase_eq

/-- What is known of a program is known of it later on. -/
structure Grows (program later : Program) : Prop where
  package : later.package = program.package
  imports : (∀ item ∈ program.schema.imports, item.target.isSome) →
    later.schema.imports = program.schema.imports
  references : ∀ references, program.references = some references →
    later.references = some references
  names : ∀ path, later.schema.typeName? path = program.schema.typeName? path
  messages : program.scope.messages ⊆ later.scope.messages
  enums : program.scope.enums ⊆ later.scope.enums

namespace Grows

variable {program later last : Program}

theorem refl (program : Program) : program.Grows program :=
  ⟨rfl, fun _ => rfl, fun _ h => h, fun _ => rfl, List.Subset.refl _, List.Subset.refl _⟩

theorem trans (h : program.Grows later) (h' : later.Grows last) : program.Grows last where
  package := h'.package.trans h.package
  imports := by
    intro hbound
    have himports := h.imports hbound
    rw [h'.imports (by rwa [himports]), himports]
  references := fun references hreferences => h'.references _ (h.references _ hreferences)
  names := fun path => (h'.names path).trans (h.names path)
  messages := fun _ hentry => h'.messages (h.messages hentry)
  enums := fun _ hentry => h'.enums (h.enums hentry)

theorem of_eq
    (hpackage : later.package = program.package)
    (himports : later.schema.imports = program.schema.imports)
    (hreferences : later.references = program.references)
    (hnames : ∀ path, later.schema.typeName? path = program.schema.typeName? path)
    (hscope : later.scope = program.scope) : program.Grows later := by
  refine ⟨hpackage, fun _ => himports, fun _ h => hreferences.trans h, hnames, ?_, ?_⟩
  · rw [hscope]
    exact List.Subset.refl _
  · rw [hscope]
    exact List.Subset.refl _

theorem bindImport (program : Program) (index : Nat) (target : ProgramId) :
    program.Grows { program with schema := (program.schema.bindImport index target).1 } := by
  have hschema := program.schema.bindImport_eq index target
  refine ⟨?_, fun hbound => ?_, fun _ h => h, fun path => ?_, List.Subset.refl _,
    List.Subset.refl _⟩
  · exact congrArg (·.package.name.value) hschema
  · apply ext_getElem?
    intro i
    rw [Schema.bindImport_imports]
    cases hitem : program.schema.imports[i]? with
    | none => rfl
    | some item =>
      have htarget : item.target ≠ none := by
        intro hnone
        simpa [hnone] using hbound item (mem_of_getElem? hitem)
      simp [htarget]
  · rw [hschema]
    exact Schema.typeName?_congr rfl rfl path

end Grows

theorem Step.grows
    {arena : Arena} {id : ProgramId} {program later : Program} (h : program.Step arena id later) :
    program.Grows later := by
  cases h with
  | skip => exact .refl program
  | check config =>
    obtain ⟨before, after, -, hchecked, -⟩ := program.exists_checkDefinitions_eq config
    rw [hchecked]
    refine ⟨rfl, fun _ => rfl, fun _ h => h, fun _ => rfl, ?_, ?_⟩
    · rw [Scope.messages_foldl_extend]
      exact subset_append_left _ _
    · rw [Scope.enums_foldl_extend]
      exact subset_append_left _ _
  | set setting => exact .of_eq rfl rfl rfl (fun path => Schema.typeName?_congr rfl rfl path) rfl
  | bindImport index target => exact .bindImport program index target
  | link hlinked =>
    obtain ⟨references, -, rfl⟩ := linkImports_eq_ok_iff.1 hlinked
    refine ⟨rfl, fun _ => rfl, fun references h => ?_, fun _ => rfl, List.Subset.refl _,
      List.Subset.refl _⟩
    simp [h]
  | bind =>
    have hnames := Schema.typeName?_eq_of_unbind (program.unbind_bindReferences arena id)
    obtain ⟨services, messages, heq⟩ := program.bindReferences_eq arena id
    rw [heq] at hnames ⊢
    exact .of_eq rfl rfl rfl hnames rfl
  | describe => exact .of_eq rfl rfl rfl (fun _ => rfl) rfl

end Program

namespace Arena

variable {arena arena' : Arena} {id : ProgramId} {program later : Program}

theorem getElem?_update (arena : Arena) (i : ProgramId) (change : Program → Program)
    (id : ProgramId) :
    (arena.update i change)[id]? = arena[id]?.map fun program =>
      if i = id then change program else program := by
  unfold update
  by_cases hid : i = id
  · subst hid
    cases hprogram : arena[i]? with
    | none => simpa using hprogram
    | some program => simp [lt_of_getElem? hprogram]
  · cases arena[i]? <;> simp [hid]

/-- A pass takes a step with every program that is there. -/
theorem exists_step (hprogram : arena[id]? = some program) (pass : Pass) :
    ∃ later, (arena.after pass)[id]? = some later ∧ program.Step arena id later := by
  -- a pass over one program leaves the others as they are
  have hupdate : ∀ (i : ProgramId) (change : Program → Program),
      (i = id → program.Step arena id (change program)) →
      ∃ later, (arena.update i change)[id]? = some later ∧ program.Step arena id later := by
    intro i change hchange
    rw [getElem?_update, hprogram]
    refine ⟨_, rfl, ?_⟩
    split
    next hid => exact hchange hid
    next => exact .skip
  cases pass with
  | load file dialect config source =>
    refine ⟨program, ?_, .skip⟩
    rw [after]
    split
    · rw [getElem?_append_left (lt_of_getElem? hprogram), hprogram]
    · exact hprogram
  | checkDefinitions config i => exact hupdate i _ fun _ => .check config
  | applySetting setting i => exact hupdate i _ fun _ => .set setting
  | bindImport index target i => exact hupdate i _ fun _ => .bindImport index target
  | linkImports i =>
    refine hupdate i _ fun _ => ?_
    split
    next linked hlinked => exact .link hlinked
    next => exact .skip
  | bindReferences i =>
    refine hupdate i _ ?_
    rintro rfl
    exact .bind
  | remember ids =>
    rw [after, remember, getElem?_mapIdx, hprogram]
    refine ⟨_, rfl, ?_⟩
    split
    · exact .describe
    · exact .skip

/-- A program that is there after a pass was there before, or was just read. -/
theorem exists_step_or_parse {pass : Pass} (hlater : (arena.after pass)[id]? = some later) :
    (∃ program, arena[id]? = some program ∧ program.Step arena id later) ∨
      ∃ (file : String) (dialect : Dialect) (config : ParseConfig) (source : String)
        (schema : Schema), dialect.parse config source = .ok schema ∧
        later = .ofSchema file schema := by
  cases hprogram : arena[id]? with
  | some program =>
    obtain ⟨later', hlater', hstep⟩ := exists_step hprogram pass
    cases hlater'.symm.trans hlater
    exact .inl ⟨program, rfl, hstep⟩
  | none =>
    cases pass with
    | load file dialect config source =>
      rw [after] at hlater
      split at hlater
      next schema hparse =>
        rw [getElem?_append_right (List.getElem?_eq_none_iff.1 hprogram)] at hlater
        have hmem := mem_singleton.1 (mem_of_getElem? hlater)
        exact .inr ⟨file, dialect, config, source, schema, hparse, hmem⟩
      next => cases hprogram.symm.trans hlater
    | remember ids => simp [after, remember, hprogram] at hlater
    | _ => simp [after, getElem?_update, hprogram] at hlater

/-! ## Many passes -/

/-- Every program is still there, and what was known of it is known. -/
def Grows (arena arena' : Arena) : Prop :=
  ∀ (id : ProgramId) (program : Program), arena[id]? = some program →
    ∃ later, arena'[id]? = some later ∧ program.Grows later

theorem grows_after (arena : Arena) (pass : Pass) : arena.Grows (arena.after pass) := by
  intro id program hprogram
  obtain ⟨later, hlater, hstep⟩ := exists_step hprogram pass
  exact ⟨later, hlater, hstep.grows⟩

theorem Grows.trans {arena'' : Arena} (h : arena.Grows arena') (h' : arena'.Grows arena'') :
    arena.Grows arena'' := by
  intro id program hprogram
  obtain ⟨later, hlater, hgrows⟩ := h id program hprogram
  obtain ⟨last, hlast, hgrows'⟩ := h' id later hlater
  exact ⟨last, hlast, hgrows.trans hgrows'⟩

theorem grows_foldl (arena : Arena) (passes : List Pass) :
    arena.Grows (passes.foldl after arena) := by
  induction passes generalizing arena with
  | nil => exact fun id program hprogram => ⟨program, hprogram, .refl program⟩
  | cons pass passes ih => exact (arena.grows_after pass).trans (ih (arena.after pass))

theorem afterAll_concat (passes : List Pass) (pass : Pass) :
    afterAll (passes ++ [pass]) = (afterAll passes).after pass := by
  rw [afterAll, foldl_append]
  rfl

/-- What holds of programs that were just read, and is kept by every step, holds at all times. -/
theorem forall_afterAll
    {P : ProgramId → Program → Prop}
    (hparse : ∀ (id : ProgramId) (file : String) (schema : Schema), schema.Fresh →
      P id (.ofSchema file schema))
    (hstep : ∀ {arena : Arena} {id : ProgramId} {program later : Program},
      program.Step arena id later → P id program → P id later)
    (passes : List Pass) :
    ∀ id program, (afterAll passes)[id]? = some program → P id program := by
  induction passes using List.reverseRecOn with
  | nil =>
    intro id program hprogram
    simp [afterAll] at hprogram
  | append_singleton passes pass ih =>
    intro id later hlater
    rw [afterAll_concat] at hlater
    rcases exists_step_or_parse hlater with ⟨program, hprogram, hnext⟩ |
      ⟨file, dialect, config, source, schema, hschema, rfl⟩
    · exact hstep hnext (ih id program hprogram)
    · exact hparse id file schema (fresh_of_parse hschema)

end Arena

end Idl

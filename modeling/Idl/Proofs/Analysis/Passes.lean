import Idl.Analysis.Import
import Idl.Analysis.Reference
import Idl.Proofs.Except
import Idl.Proofs.List

/-!
# What the passes leave alone

Binding an import changes the target of that import and nothing else.  Linking sets the references
of a program, and binding type names changes its services and messages only.
-/

namespace Idl

open List

/-! ## Binding imports -/

/-- The import bound to nothing. -/
def Import.forget (item : Import) : Import := { item with target := none }

namespace Program

/-- The program with its imports bound to nothing. -/
def forget (program : Program) : Program :=
  { program with
    schema := { program.schema with imports := program.schema.imports.map (·.forget) } }

/-- The program with each import bound to what its file stands for. -/
def bindTo (target : String → Option ProgramId) (program : Program) : Program :=
  { program with
    schema := { program.schema with
      imports := program.schema.imports.map fun item =>
        { item with target := target item.file.value } } }

theorem forget_bindTo (target : String → Option ProgramId) (program : Program) :
    (program.bindTo target).forget = program.forget := by
  simp only [forget, bindTo, map_map]
  rfl

theorem bindTo_congr
    {target target' : String → Option ProgramId} {program : Program}
    (h : ∀ item ∈ program.schema.imports, target' item.file.value = target item.file.value) :
    program.bindTo target' = program.bindTo target := by
  have himports : program.schema.imports.map (fun item =>
        { item with target := target' item.file.value }) =
      program.schema.imports.map fun item => { item with target := target item.file.value } :=
    map_congr_left fun item hitem => by rw [h item hitem]
  simp only [bindTo, himports]

/-- A program is known by what is left when its imports are forgotten, and by what they are bound
to. -/
theorem eq_bindTo_of_forget
    {target : String → Option ProgramId} {program program' : Program}
    (hforget : program'.forget = program.forget)
    (htarget : ∀ item ∈ program'.schema.imports, item.target = target item.file.value) :
    program' = program.bindTo target := by
  have hself : program'.bindTo target = program' := by
    have himports : program'.schema.imports.map (fun item =>
        { item with target := target item.file.value }) = program'.schema.imports := by
      refine (map_congr_left fun item hitem => ?_).trans (map_id _)
      rw [← htarget item hitem]
      rfl
    rw [bindTo, himports]
  have hbind : ∀ program : Program, program.forget.bindTo target = program.bindTo target := by
    intro program
    simp only [forget, bindTo, map_map]
    rfl
  rw [← hself, ← hbind program', hforget, hbind]

end Program

theorem Schema.bindImport_imports (schema : Schema) (index : Nat) (target : ProgramId) (i : Nat) :
    (schema.bindImport index target).1.imports[i]? = schema.imports[i]?.map fun item =>
      if i = index ∧ item.target = none then { item with target := some target } else item := by
  unfold Schema.bindImport
  cases hitem : schema.imports[index]? with
  | none =>
    by_cases hi : i = index
    · subst hi
      simp [hitem]
    · simp [hi]
  | some item =>
    cases hbound : item.target with
    | none =>
      by_cases hi : i = index
      · subst hi
        rw [hitem]
        have hlt : i < schema.imports.length := lt_of_getElem? hitem
        simp [hbound, hlt]
      · simp [hbound, hi, getElem?_set_ne (Ne.symm hi)]
    | some _ =>
      by_cases hi : i = index
      · subst hi
        simp [hitem, hbound]
      · simp [hbound, hi]

theorem Schema.bindImport_eq (schema : Schema) (index : Nat) (target : ProgramId) :
    (schema.bindImport index target).1 =
      { schema with imports := (schema.bindImport index target).1.imports } := by
  unfold Schema.bindImport
  split
  · rfl
  · split <;> rfl

theorem Program.forget_bindImport (program : Program) (index : Nat) (target : ProgramId) :
    Program.forget { program with schema := (program.schema.bindImport index target).1 } =
      program.forget := by
  have himports : (program.schema.bindImport index target).1.imports.map (·.forget) =
      program.schema.imports.map (·.forget) := by
    apply ext_getElem?
    intro i
    rw [getElem?_map, getElem?_map, Schema.bindImport_imports]
    cases program.schema.imports[i]? with
    | none => rfl
    | some item =>
      simp only [Option.map_some, Import.forget]
      split <;> rfl
  rw [Schema.bindImport_eq]
  simp only [Program.forget, himports]

/-! ## Linking -/

theorem Program.linkImports_eq_ok_iff {arena : Arena} {program linked : Program} :
    program.linkImports arena = .ok linked ↔
      ∃ references, program.link arena = .ok references ∧
        linked = { program with references := some (program.references.getD references) } := by
  simp only [linkImports, bind_eq_ok_iff, pure_eq_ok_iff]
  exact exists_congr fun _ => and_congr_right fun _ => eq_comm

theorem Program.bindReferences_eq (arena : Arena) (id : ProgramId) (program : Program) :
    ∃ services messages, (program.bindReferences arena id).1 =
      { program with schema := { program.schema with services, messages } } := by
  unfold bindReferences
  dsimp only
  split
  next services fault heq => exact ⟨services, program.schema.messages, rfl⟩
  next services heq => exact ⟨services, _, rfl⟩

end Idl

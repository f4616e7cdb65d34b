import Idl.Proofs.Analysis.Unresolved

/-!
# When a program can be linked

A program can be linked when its imports can, and every type name in it stands for something.  Which
names do not is decided by what the program sees of others, so that programs which see the same
outlines can be linked alike.
-/

namespace Idl

variable {message : Message} {id : ProgramId} {path : MessagePath}

/-! ## Names that stand for nothing -/

section Misses

variable {resolve resolve' : TypeName → Option TypeRef}
  {resolveStub resolveStub' : String → Option MessageRef} {place : Place} {fault : Unresolved}

theorem Field.Misses.mono
    {field : Field} (hresolve : ∀ type, resolve' type = none → resolve type = none)
    (h : field.Misses resolve' place fault) : field.Misses resolve place fault := by
  obtain ⟨type, hcustom, htarget, hnone, hfault⟩ := h
  exact ⟨type, hcustom, htarget, hresolve type hnone, hfault⟩

theorem Message.lookUp_eq_none_iff {type : TypeName} :
    message.lookUp resolve id path type = none ↔
      (message.messageIndex? type.name.value = none ∧ message.enumIndex? type.name.value = none) ∧
        resolve type = none := by
  unfold lookUp Message.find?
  cases message.messageIndex? type.name.value <;> cases message.enumIndex? type.name.value <;> simp

theorem Message.Misses.mono
    (hresolve : ∀ type, resolve' type = none → resolve type = none) {id' : ProgramId}
    (h : message.Misses resolve' id' path fault) : message.Misses resolve id path fault := by
  obtain ⟨field, hfield, hmisses⟩ := h
  refine ⟨field, hfield, hmisses.mono fun type hnone => ?_⟩
  exact lookUp_eq_none_iff.2 ((lookUp_eq_none_iff.1 hnone).imp_right (hresolve type))

theorem MethodMessage.Misses.mono
    {message : MethodMessage} (hresolve : ∀ type, resolve' type = none → resolve type = none)
    (hstub : ∀ name, resolveStub' name = none → resolveStub name = none)
    (h : message.Misses resolve' resolveStub' place fault) :
    message.Misses resolve resolveStub place fault := by
  cases message with
  | inline message =>
    obtain ⟨field, hfield, hmisses⟩ := h
    exact ⟨field, hfield, hmisses.mono hresolve⟩
  | stub name target => exact ⟨h.1, hstub name.value h.2.1, h.2.2⟩

theorem Method.Misses.mono
    {method : Method} {service : String}
    (hresolve : ∀ type, resolve' type = none → resolve type = none)
    (hstub : ∀ name, resolveStub' name = none → resolveStub name = none)
    (h : method.Misses resolve' resolveStub' service fault) :
    method.Misses resolve resolveStub service fault :=
  h.imp (fun ⟨m, hm, hmisses⟩ => ⟨m, hm, hmisses.mono hresolve hstub⟩)
    fun ⟨m, hm, hmisses⟩ => ⟨m, hm, hmisses.mono hresolve hstub⟩

end Misses

namespace Program

variable {arena arena' : Arena} {id id' : ProgramId} {program program' : Program}

theorem Misses.of_outlines
    {fault : Unresolved} (h : program'.Misses arena' id' fault)
    (houtline : program'.outline = program.outline)
    (hreferences : program'.references.map arena'.outlineTable =
      program.references.map arena.outlineTable)
    (hservices : program'.schema.services = program.schema.services)
    (hmessages : program'.schema.messages = program.schema.messages) :
    program.Misses arena id fault := by
  have hresolve (type : TypeName) (hnone : program'.resolve? arena' id' type = none) :
      program.resolve? arena id type = none := by
    rw [← Option.not_isSome_iff_eq_none] at hnone ⊢
    rwa [isSome_resolve?_eq houtline hreferences type] at hnone
  have hstub (name : String) (hnone : program'.resolveStub? arena' id' name = none) :
      program.resolveStub? arena id name = none := by
    rw [← Option.not_isSome_iff_eq_none] at hnone ⊢
    rwa [isSome_resolveStub?_eq houtline hreferences name] at hnone
  refine h.imp ?_ ?_
  · rintro ⟨service, hservice, method, hmethod, hmisses⟩
    exact ⟨service, hservices ▸ hservice, method, hmethod, hmisses.mono hresolve hstub⟩
  · rintro ⟨path, message, hmessage, hmisses⟩
    have hsame : program'.schema.message? path = program.schema.message? path := by
      cases path with
      | nil => rfl
      | cons i rest => rw [Schema.message?, Schema.message?, hmessages]
    exact ⟨path, message, hsame ▸ hmessage, hmisses.mono hresolve⟩

/-! ## Linking -/

/-- In an arena where it has the given number, the imports of a program can be linked, and every
type name in it stands for something. -/
def Links (arena : Arena) (id : ProgramId) (program : Program) : Prop :=
  ∃ linked, program.linkImports arena = .ok linked ∧
    (linked.bindReferences (arena.set id linked) id).2 = none

/-- Programs that differ in their file and in the numbers of their imports can be linked alike, if
what they are bound to looks alike. -/
theorem Links.of_outlines
    (hlinks : program.Links arena id)
    (hsame : program'.forget = { program.forget with file := program'.file })
    (hreferences : program.references = none)
    (himports : program'.schema.imports.map arena'.importOutline =
      program.schema.imports.map arena.importOutline)
    (hself : ∀ old, arena[id]? = some old → old.outline = program.outline)
    (hself' : ∀ old, arena'[id']? = some old → old.outline = program'.outline) :
    program'.Links arena' id' := by
  have houtline : program'.forget.outline = program.forget.outline := by rw [hsame]; rfl
  have hservices : program'.schema.services = program.schema.services :=
    congrArg (·.schema.services) hsame
  have hmessages : program'.schema.messages = program.schema.messages :=
    congrArg (·.schema.messages) hsame
  have hreferences' : program'.references = none :=
    (congrArg (·.references) hsame).trans hreferences
  obtain ⟨linked, hlink, hbind⟩ := hlinks
  obtain ⟨table, htable, rfl⟩ := linkImports_eq_ok_iff.1 hlink
  obtain ⟨table', htable', htables⟩ := Arena.linkFrom_eq_ok_of_outlines himports htable
  refine ⟨_, linkImports_eq_ok_iff.2 ⟨table', htable', rfl⟩, ?_⟩
  have hset : Arena.outlineTable (arena.set id { program with references := some table }) table =
      arena.outlineTable table := by
    refine Arena.outlineTable_set ?_ table
    exact hself
  have hset' : Arena.outlineTable (arena'.set id' { program' with references := some table' })
      table' = arena'.outlineTable table' := by
    refine Arena.outlineTable_set ?_ table'
    exact hself'
  refine (reports_bindReferences _ _ _).none_of (reports_bindReferences _ _ _) (fun fault h => ?_)
    hbind
  refine h.of_outlines ?_ ?_ hservices hmessages
  · exact houtline
  simp only [hreferences, hreferences', Option.getD_none, Option.map_some, hset, hset', htables]

end Program

end Idl

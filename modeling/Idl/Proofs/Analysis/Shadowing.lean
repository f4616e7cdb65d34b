import Idl.Analysis.Binding
import Idl.Proofs.Analysis.Catalogue
import Mathlib.Data.List.TakeWhile

/-!
# Bare names

A bare type name in a field is looked for in the message around it before it is looked for in the
whole program, and in a request or a reply only in the whole program.  Since no two declarations of
a program that has passed the check have the same name, nothing is shadowed: the main statement is
that a bare name stands for the same declaration in every message and in every method.
-/

namespace Idl

variable {id : ProgramId} {name : String}

theorem splitLastDot?_eq_none {s : String} (h : '.' ∉ s.toList) : splitLastDot? s = none := by
  have hdrop : s.toList.reverse.dropWhile (· != '.') = [] := by
    refine List.dropWhile_eq_nil_iff.2 fun c hc => bne_iff_ne.2 ?_
    rintro rfl
    exact h (List.mem_reverse.1 hc)
  rw [splitLastDot?, hdrop]

/-! ## Bare names stay in their program -/

theorem Scope.program_of_find?
    {scope : Scope} {ref : TypeRef} (h : scope.find? id name = some ref) : ref.program = id := by
  unfold Scope.find? Scope.findMessage? at h
  cases hmessage : scope.messages.lookup name with
  | some path =>
    obtain rfl : .message ⟨id, path⟩ = ref := by simpa [hmessage] using h
    rfl
  | none =>
    obtain ⟨path, -, rfl⟩ :
        ∃ path, scope.enums.lookup name = some path ∧ .enum ⟨id, path⟩ = ref := by
      simpa [hmessage] using h
    rfl

theorem Message.program_of_find?
    {message : Message} {path : MessagePath} {ref : TypeRef}
    (h : message.find? id path name = some ref) : ref.program = id := by
  unfold Message.find? at h
  split at h
  next index hindex =>
    cases h
    rfl
  next =>
    obtain ⟨index, -, rfl⟩ := Option.map_eq_some_iff.1 h
    rfl

namespace Program

variable {arena : Arena} {id : ProgramId} {program later : Program}

theorem resolve?_of_bare {type : TypeName} (hbare : '.' ∉ type.name.value.toList) :
    program.resolve? arena id type = program.scope.find? id type.name.value := by
  rw [resolve?, TypeName.qualified?, splitLastDot?_eq_none hbare]

theorem resolveStub?_of_bare (hbare : '.' ∉ name.toList) :
    program.resolveStub? arena id name = program.scope.findMessage? id name := by
  rw [resolveStub?, splitLastDot?_eq_none hbare]

end Program

/-- The type name is qualified, or bound to no other program. -/
def TypeName.AtHome (id : ProgramId) (type : TypeName) : Prop :=
  '.' ∉ type.name.value.toList → ∀ target, type.target = some target → target.program = id

/-- Binding a bare name does not lead out of the program. -/
theorem Program.Step.atHome
    {arena : Arena} {program later : Program} (hstep : program.Step arena id later)
    (h : program.schema.Each (TypeName.AtHome id)) : later.schema.Each (TypeName.AtHome id) := by
  cases hstep with
  | skip | set setting | describe => exact h
  | check config =>
    obtain ⟨before, after, -, hchecked, -⟩ := program.exists_checkDefinitions_eq config
    rw [hchecked]
    exact h
  | bindImport index target =>
    rw [Schema.bindImport_eq]
    exact h
  | link hlinked =>
    obtain ⟨references, -, rfl⟩ := linkImports_eq_ok_iff.1 hlinked
    exact h
  | bind =>
    have hresolve : Finds (TypeName.AtHome id) (program.resolve? arena id) := by
      rintro type target hfound hbare _ ⟨⟩
      exact Scope.program_of_find? ((resolve?_of_bare hbare).symm.trans hfound)
    have hstub : FindsStub (TypeName.AtHome id) (program.resolveStub? arena id) := by
      rintro name ref hfound hbare _ ⟨⟩
      obtain ⟨path, -, rfl⟩ :=
        Option.map_eq_some_iff.1 ((resolveStub?_of_bare hbare).symm.trans hfound)
      rfl
    refine (Program.rebound hresolve hstub fun path message _ type target hfound => ?_).each h
    unfold Message.lookUp at hfound
    split at hfound
    next found hlocal =>
      rintro - _ ⟨⟩
      cases hfound
      exact Message.program_of_find? hlocal
    next => exact hresolve type target hfound

theorem Arena.atHome_afterAll
    (passes : List Pass) {program : Program} (hprogram : (afterAll passes)[id]? = some program) :
    program.schema.Each (TypeName.AtHome id) := by
  refine forall_afterAll (P := fun id program => program.schema.Each (TypeName.AtHome id)) ?_ ?_
    passes id program hprogram
  · intro id file schema hfresh
    refine hfresh.each fun type hunbound _ target htarget => ?_
    rw [show type.target = none from hunbound] at htarget
    cases htarget
  · exact fun hstep h => hstep.atHome h

theorem Schema.Each.and
    {P Q : TypeName → Prop} {schema : Schema} (h : schema.Each P) (h' : schema.Each Q) :
    schema.Each fun type => P type ∧ Q type := by
  obtain ⟨hmessages, hmethods⟩ := Schema.each_iff.1 h
  obtain ⟨hmessages', hmethods'⟩ := Schema.each_iff.1 h'
  refine Schema.each_iff.2 ⟨fun path message hmessage field hfield type htype =>
    ⟨hmessages path message hmessage field hfield type htype,
      hmessages' path message hmessage field hfield type htype⟩, fun message hmessage => ?_⟩
  have hfirst := hmethods message hmessage
  have hsecond := hmethods' message hmessage
  cases message with
  | inline message =>
    exact fun field hfield type htype =>
      ⟨hfirst field hfield type htype, hsecond field hfield type htype⟩
  | stub name target => exact ⟨hfirst, hsecond⟩

/-! ## The main statement -/

/-- The type name is qualified, or bound to nothing but what its name stands for in the whole
program. -/
def Program.Settles (id : ProgramId) (program : Program) (type : TypeName) : Prop :=
  '.' ∉ type.name.value.toList → ∀ target, type.target = some target →
    program.scope.find? id type.name.value = some target

/-- In an arena that any passes have made, let a program have passed the check of its definitions.
What a name stands for in one of its messages, it stands for in the whole program.  Hence a bare
name that is looked up in a message at any depth, in a request or in a reply stands for what it
stands for in the whole program, and all bare names that are bound are bound to that. -/
theorem Arena.bare_name_stands_for_one
    {passes : List Pass} {id : ProgramId} {program : Program} (hcleared : Cleared passes id)
    (hprogram : (afterAll passes)[id]? = some program) :
    (∀ path message, program.schema.message? path = some message →
      (∀ name target, message.find? id path name = some target →
        program.scope.find? id name = some target) ∧
      Finds (program.Settles id)
        (message.lookUp (program.resolve? (afterAll passes) id) id path)) ∧
    Finds (program.Settles id) (program.resolve? (afterAll passes) id) ∧
    FindsStub (program.Settles id) (program.resolveStub? (afterAll passes) id) ∧
    program.schema.Each (program.Settles id) := by
  have hsound := sound_afterAll passes program (List.mem_of_getElem? hprogram)
  have hcomplete := hcleared.complete hprogram
  -- a declaration of the program with the name is what the name stands for
  have hfind : ∀ {name : String} {target : TypeRef}, target.program = id →
      (afterAll passes).typeName? target = some name →
      program.scope.find? id name = some target := by
    rintro name target rfl hname
    rw [typeName?_eq, hprogram, Option.bind_some] at hname
    exact (hcomplete.find?_eq_some_iff hsound.toTables).2 ⟨rfl, hname⟩
  have hlocal : ∀ path message, program.schema.message? path = some message →
      ∀ name target, message.find? id path name = some target →
        program.scope.find? id name = some target :=
    fun path message hmessage name target hfound => hfind (Message.program_of_find? hfound)
      (Message.typeName?_find? hprogram hmessage hfound)
  have hresolve : Finds (program.Settles id) (program.resolve? (afterAll passes) id) := by
    rintro type target hfound hbare _ ⟨⟩
    exact (Program.resolve?_of_bare hbare).symm.trans hfound
  refine ⟨fun path message hmessage => ⟨hlocal path message hmessage, ?_⟩, hresolve, ?_, ?_⟩
  · intro type target hfound
    unfold Message.lookUp at hfound
    split at hfound
    next found hfind =>
      rintro - _ ⟨⟩
      cases hfound
      exact hlocal path message hmessage _ _ hfind
    next => exact hresolve type target hfound
  · rintro name ref hfound hbare _ ⟨⟩
    rw [Program.resolveStub?_of_bare hbare] at hfound
    dsimp only
    rw [Scope.find?, hfound]
  · refine (hsound.types.and (atHome_afterAll passes hprogram)).mono ?_
    rintro type ⟨htype, hhome⟩ hbare target htarget
    obtain ⟨name, hname, rfl | ⟨qualifier, hsplit⟩⟩ := htype target htarget
    · exact hfind (hhome hbare target htarget) hname
    · cases (splitLastDot?_eq_none hbare).symm.trans hsplit

/-- A message that is named in the message around it, in itself, and in a method. -/
def sameNamePasses : List Pass :=
  [.load "a.wproto" .native ⟨true⟩
      "package p message a { message n { n g = 1 } n h = 1 } service s { g(n) n = 1 }",
    .checkDefinitions ⟨true⟩ 0, .bindReferences 0]

theorem Arena.bare_name_stands_for_one_nested :
    ∃ program message, (afterAll sameNamePasses)[0]? = some program ∧
      program.schema.message? [0] = some message ∧
      message.find? 0 [0] "n" = some (.message ⟨0, [0, 0]⟩) ∧
      program.scope.find? 0 "n" = some (.message ⟨0, [0, 0]⟩) ∧
      program.schema.bindings.map (·.target) =
        List.replicate 4 (some (.message ⟨0, [0, 0]⟩)) ∧
      program.schema.Each (program.Settles 0) := by
  have hcleared : Cleared sameNamePasses 0 :=
    .of_any [sameNamePasses.head (by decide)] ⟨true⟩ [.bindReferences 0] (by decide +kernel)
  have hlocal : ((afterAll sameNamePasses)[0]?.map fun program =>
      ((program.schema.message? [0]).map (·.find? 0 [0] "n"),
        program.schema.bindings.map (·.target))) =
      some (some (some (.message ⟨0, [0, 0]⟩)),
        List.replicate 4 (some (.message ⟨0, [0, 0]⟩))) := by
    decide +kernel
  obtain ⟨program, hprogram, hresult⟩ := Option.map_eq_some_iff.1 hlocal
  obtain ⟨hfound, htargets⟩ := Prod.mk.inj hresult
  obtain ⟨message, hmessage, hfind⟩ := Option.map_eq_some_iff.1 hfound
  obtain ⟨hmessages, -, -, hbound⟩ := bare_name_stands_for_one hcleared hprogram
  exact ⟨program, message, hprogram, hmessage, hfind, (hmessages [0] message hmessage).1 _ _ hfind,
    htargets, hbound⟩

end Idl

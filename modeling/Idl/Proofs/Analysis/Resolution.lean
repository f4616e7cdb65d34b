import Idl.Proofs.Analysis.Distinct
import Idl.Proofs.Analysis.Rebinding
import Idl.Proofs.Grammar.Fresh

/-!
# What type names stand for

A type name is looked for in the message around it, among all messages and enums of the program, or
among those of the programs that an import name stands for.  Wherever the tables of the programs
lead to the names in them, what is found is there and has the name that was written, or its part
behind the last dot.
-/

namespace Idl

open List

variable {name : String} {ref : TypeRef}

/-! ## Names of declarations -/

namespace Schema

variable {schema schema' : Schema}

theorem message?_unbind (schema : Schema) (path : MessagePath) :
    schema.unbind.message? path = (schema.message? path).map (·.unbind) := by
  cases path with
  | nil => rfl
  | cons i path =>
    simp only [message?, unbind, getElem?_map]
    cases schema.messages[i]? with
    | none => rfl
    | some m => exact m.descend_unbind path

theorem enum?_unbind (schema : Schema) (path : EnumPath) :
    schema.unbind.enum? path = schema.enum? path := by
  obtain ⟨owner, index⟩ := path
  cases owner with
  | none => rfl
  | some owner =>
    simp only [enum?, message?_unbind]
    cases schema.message? owner with
    | none => rfl
    | some m => rw [Option.map_some, Option.bind_some, Option.bind_some, Message.unbind_eq]

theorem typeName?_unbind (schema : Schema) (path : TypePath) :
    schema.unbind.typeName? path = schema.typeName? path := by
  cases path with
  | message path =>
    rw [typeName?_message, typeName?_message, message?_unbind]
    cases schema.message? path with
    | none => rfl
    | some m => rw [Option.map_some, Option.map_some, Option.map_some, Message.unbind_eq]
  | enum path => rw [typeName?_enum, typeName?_enum, enum?_unbind]

theorem typeName?_eq_of_unbind (h : schema'.unbind = schema.unbind) (path : TypePath) :
    schema'.typeName? path = schema.typeName? path := by
  rw [← typeName?_unbind schema', h, typeName?_unbind]

end Schema

/-- The way to a declaration inside its program. -/
def TypeRef.path : TypeRef → TypePath
  | message ref => .message ref.path
  | enum ref => .enum ref.path

/-- The program of a declaration. -/
def TypeRef.program : TypeRef → ProgramId
  | message ref => ref.program
  | enum ref => ref.program

namespace Arena

variable {arena arena' : Arena}

/-- The enum that a reference stands for. -/
def enum? (arena : Arena) (ref : EnumRef) : Option EnumDef :=
  arena[ref.program]?.bind (·.schema.enum? ref.path)

/-- The name of the message or the enum that a reference stands for. -/
def typeName? (arena : Arena) : TypeRef → Option String
  | .message ref => (arena.message? ref).map (·.name.value)
  | .enum ref => (arena.enum? ref).map (·.name.value)

theorem typeName?_eq (arena : Arena) (ref : TypeRef) :
    arena.typeName? ref = arena[ref.program]?.bind (·.schema.typeName? ref.path) := by
  cases ref with
  | message ref =>
    simp only [typeName?, message?, Option.map_bind, TypeRef.program, TypeRef.path]
    congr 1
    funext program
    exact (program.schema.typeName?_message ref.path).symm
  | enum ref =>
    simp only [typeName?, enum?, Option.map_bind, TypeRef.program, TypeRef.path]
    congr 1
    funext program
    exact (program.schema.typeName?_enum ref.path).symm

theorem typeName?_eq_some
    {program : Program} (hprogram : arena[ref.program]? = some program)
    (hname : program.schema.typeName? ref.path = some name) : arena.typeName? ref = some name := by
  rw [typeName?_eq, hprogram, Option.bind_some, hname]

end Arena

/-- A type name that is written so stands for a declaration of the given name: for one of that very
name, or of the name behind its last dot. -/
def StandsFor (written name : String) : Prop :=
  name = written ∨ ∃ qualifier, splitLastDot? written = some (qualifier, name)

/-- The type name is bound to nothing, or to a declaration of the arena that it stands for. -/
def TypeName.Sound (arena : Arena) (type : TypeName) : Prop :=
  ∀ target, type.target = some target →
    ∃ name, arena.typeName? target = some name ∧ StandsFor type.name.value name

/-! ## Looking names up -/

/-- The tables of a program lead to messages and enums of the names in them. -/
structure Program.Tables (program : Program) : Prop where
  messages : ∀ name path, (name, path) ∈ program.scope.messages →
    program.schema.typeName? (.message path) = some name
  enums : ∀ name path, (name, path) ∈ program.scope.enums →
    program.schema.typeName? (.enum path) = some name

section LookUp

variable {arena : Arena} {id : ProgramId} {program : Program}

theorem Program.Tables.typeName?_findMessage?
    (h : program.Tables) (hprogram : arena[id]? = some program) {ref : MessageRef}
    (hfind : program.scope.findMessage? id name = some ref) :
    arena.typeName? (.message ref) = some name := by
  obtain ⟨path, hpath, rfl⟩ := Option.map_eq_some_iff.1 hfind
  exact Arena.typeName?_eq_some hprogram (h.messages name path (Assoc.mem_of_lookup_eq_some hpath))

theorem Program.Tables.typeName?_find?
    (h : program.Tables) (hprogram : arena[id]? = some program)
    (hfind : program.scope.find? id name = some ref) : arena.typeName? ref = some name := by
  unfold Scope.find? at hfind
  split at hfind
  next found hfound =>
    cases hfind
    exact h.typeName?_findMessage? hprogram hfound
  next =>
    obtain ⟨path, hpath, rfl⟩ := Option.map_eq_some_iff.1 hfind
    exact Arena.typeName?_eq_some hprogram (h.enums name path (Assoc.mem_of_lookup_eq_some hpath))

/-- What is found in a message is nested in it and has the name that was looked for. -/
theorem Message.typeName?_find?
    (hprogram : arena[id]? = some program) {path : MessagePath} {message : Message}
    (hmessage : program.schema.message? path = some message)
    (hfind : message.find? id path name = some ref) : arena.typeName? ref = some name := by
  unfold Message.find? at hfind
  split at hfind
  next index hindex =>
    cases hfind
    obtain ⟨hlt, hname, -⟩ := findIdx?_eq_some_iff_getElem.1 hindex
    refine Arena.typeName?_eq_some hprogram ?_
    have hsub : program.schema.message? (path ++ [index]) = some message.messages[index] := by
      rw [Schema.message?_append hmessage, Message.descend_cons, getElem?_eq_getElem hlt]
      rfl
    simp only [TypeRef.path, Schema.typeName?_message, hsub, Option.map_some]
    rw [eq_of_beq hname]
  next =>
    obtain ⟨index, hindex, rfl⟩ := Option.map_eq_some_iff.1 hfind
    obtain ⟨hlt, hname, -⟩ := findIdx?_eq_some_iff_getElem.1 hindex
    refine Arena.typeName?_eq_some hprogram ?_
    have henum : program.schema.enum? ⟨some path, index⟩ = some message.enums[index] := by
      simp [Schema.enum?, hmessage, hlt]
    simp only [TypeRef.path, Schema.typeName?_enum, henum, Option.map_some]
    rw [eq_of_beq hname]

theorem TypeName.sound_of_target
    {written : Located String} {target : TypeRef} (htarget : arena.typeName? target = some name)
    (hname : StandsFor written.value name) : TypeName.Sound arena ⟨written, some target⟩ := by
  rintro _ ⟨⟩
  exact ⟨name, htarget, hname⟩

theorem Program.finds_resolve?
    (harena : ∀ program ∈ arena, program.Tables) (hprogram : arena[id]? = some program) :
    Finds (TypeName.Sound arena) (program.resolve? arena id) := by
  have htables := harena program (mem_of_getElem? hprogram)
  intro type target hresolve
  unfold Program.resolve? at hresolve
  split at hresolve
  next hbare =>
    exact TypeName.sound_of_target (htables.typeName?_find? hprogram hresolve) (Or.inl rfl)
  next reference name hqualified =>
    have hname : StandsFor type.name.value name := Or.inr ⟨reference, hqualified⟩
    split at hresolve
    next ids hids =>
      obtain ⟨i, hi, hfound⟩ := exists_of_findSome?_eq_some hresolve
      obtain ⟨imported, himported, hfind⟩ := Option.bind_eq_some_iff.1 hfound
      have himported' := harena imported (mem_of_getElem? himported)
      exact TypeName.sound_of_target (himported'.typeName?_find? himported hfind) hname
    next =>
      split at hresolve
      · exact TypeName.sound_of_target (htables.typeName?_find? hprogram hresolve) hname
      · cases hresolve

theorem Program.finds_resolveStub?
    (harena : ∀ program ∈ arena, program.Tables) (hprogram : arena[id]? = some program) :
    FindsStub (TypeName.Sound arena) (program.resolveStub? arena id) := by
  have htables := harena program (mem_of_getElem? hprogram)
  intro name ref hresolve
  unfold Program.resolveStub? at hresolve
  split at hresolve
  next =>
    exact TypeName.sound_of_target
      (htables.typeName?_findMessage? hprogram hresolve) (Or.inl rfl)
  next package short hqualified =>
    have hname : StandsFor name.value short := Or.inr ⟨package, hqualified⟩
    split at hresolve
    · exact TypeName.sound_of_target
        (htables.typeName?_findMessage? hprogram hresolve) hname
    · obtain ⟨i, hi, hfound⟩ := exists_of_findSome?_eq_some hresolve
      obtain ⟨imported, himported, hfind⟩ := Option.bind_eq_some_iff.1 hfound
      split at hfind
      · have himported' := harena imported (mem_of_getElem? himported)
        exact TypeName.sound_of_target
          (himported'.typeName?_findMessage? himported hfind) hname
      · cases hfind

theorem Program.finds_lookUp
    (harena : ∀ program ∈ arena, program.Tables) (hprogram : arena[id]? = some program)
    (path : MessagePath) (message : Message)
    (hmessage : program.schema.message? path = some message) :
    Finds (TypeName.Sound arena) (message.lookUp (program.resolve? arena id) id path) := by
  intro type target hlookUp
  unfold Message.lookUp at hlookUp
  split at hlookUp
  next found hfound =>
    cases hlookUp
    exact TypeName.sound_of_target (Message.typeName?_find? hprogram hmessage hfound) (Or.inl rfl)
  next => exact Program.finds_resolve? harena hprogram type target hlookUp

end LookUp

end Idl

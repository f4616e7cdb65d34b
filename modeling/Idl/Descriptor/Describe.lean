import Idl.Program
import Idl.Unseen

/-!
# Describing programs

The descriptor of a program copies each message that a field refers to in place of the reference.
A message that is met again inside its own copy is given by name only, so every copy is finite:
with each copy that is opened, one message fewer is left to open.
-/

namespace Idl

def Doc.describe (doc : Doc) : Option DocDesc :=
  if doc.isEmpty then Option.none else some ⟨doc.lines, doc.tail.getD ""⟩

/-- The table of some options; of several with one key the last counts. -/
def OptionDecl.describeAll (options : List OptionDecl) : OptionsDesc :=
  Assoc.ofEntries (options.map fun option => (option.key.value, option.value))

def EnumDef.describe (enum : EnumDef) : EnumDesc where
  name := enum.name.value
  doc := enum.doc.describe
  options := OptionDecl.describeAll enum.options
  values := enum.values.map fun value => ⟨value.name.value, value.number, value.doc.describe⟩

def TypeName.embed (copy : MessageRef → Option MessageDesc) (type : TypeName) :
    Option MessageDesc :=
  match type.target with
  | some (.message ref) => copy ref
  | _ => none

def FieldType.describe (copy : MessageRef → Option MessageDesc) : FieldType → TypeDesc
  | single (.base base) => ⟨.base, base.name, "", some base, none, false, none⟩
  | single (.custom type) =>
    ⟨.custom, type.name.value, "", none, none, true, type.embed copy⟩
  | list (.base base) => ⟨.list, base.name, "", some base, none, false, none⟩
  | list (.custom type) => ⟨.list, type.name.value, "", none, none, true, type.embed copy⟩
  | map key (.base base) => ⟨.map, key.name, base.name, some key, some base, false, none⟩
  | map key (.custom type) =>
    ⟨.map, key.name, type.name.value, some key, none, true, type.embed copy⟩

def Field.describe (copy : MessageRef → Option MessageDesc) (field : Field) : FieldDesc where
  name := field.name.value
  tag := field.tag.value
  type := field.type.describe copy
  options := OptionDecl.describeAll field.options
  doc := field.doc.describe

namespace Message

mutual

/-- The descriptor of a message, where `copy` gives the copy of a message that is referred to. -/
def describe (copy : MessageRef → Option MessageDesc) : Message → MessageDesc
  | ⟨name, doc, fields, messages, enums, options⟩ =>
    { name := name.value
      doc := doc.describe
      options := OptionDecl.describeAll options
      fields := fields.map (·.describe copy)
      messages := describeAll copy messages
      enums := enums.map (·.describe) }

def describeAll (copy : MessageRef → Option MessageDesc) : List Message → List MessageDesc
  | [] => []
  | message :: messages => message.describe copy :: describeAll copy messages

end

mutual

def paths (path : MessagePath) : Message → List MessagePath
  | ⟨_, _, _, messages, _, _⟩ => path :: allPaths path 0 messages

def allPaths (path : MessagePath) (index : Nat) : List Message → List MessagePath
  | [] => []
  | message :: messages => message.paths (path ++ [index]) ++ allPaths path (index + 1) messages

end

theorem mem_allPaths {path p : MessagePath} {messages : List Message} {message : Message}
    {i : Nat} (index : Nat) (hi : messages[i]? = some message)
    (hp : p ∈ message.paths (path ++ [index + i])) : p ∈ allPaths path index messages := by
  induction messages generalizing index i with
  | nil => simp at hi
  | cons first rest ih =>
    cases i with
    | zero => simp_all [allPaths]
    | succ i =>
      have hrest := ih (index + 1) (by simpa using hi)
        (by simpa [Nat.add_assoc, Nat.add_comm, Nat.add_left_comm] using hp)
      simp [allPaths, hrest]

theorem mem_paths_of_descend {message found : Message} {rest : List Nat} (path : MessagePath)
    (h : message.descend rest = some found) : path ++ rest ∈ message.paths path := by
  induction rest generalizing message path with
  | nil => cases message; simp [paths]
  | cons i rest ih =>
    cases message with
    | mk name doc fields messages enums options =>
      simp only [descend] at h
      split at h
      · rename_i sub hsub
        have hmem := ih (path ++ [i]) h
        simp only [paths, List.mem_cons]
        right
        exact mem_allPaths 0 hsub (by simpa using hmem)
      · simp at h

end Message

namespace Arena

def messageRefs (arena : Arena) : List MessageRef :=
  arena.zipIdx.flatMap fun (program, id) =>
    (Message.allPaths [] 0 program.schema.messages).map (⟨id, ·⟩)

theorem mem_messageRefs {arena : Arena} {ref : MessageRef} {message : Message}
    (h : arena.message? ref = some message) : ref ∈ arena.messageRefs := by
  obtain ⟨id, path⟩ := ref
  simp only [message?, Option.bind_eq_some_iff] at h
  obtain ⟨program, hprogram, h⟩ := h
  cases path with
  | nil => simp [Schema.message?] at h
  | cons i rest =>
    simp only [Schema.message?, Option.bind_eq_some_iff] at h
    obtain ⟨top, htop, hrest⟩ := h
    have hpaths : i :: rest ∈ Message.allPaths [] 0 program.schema.messages :=
      Message.mem_allPaths 0 htop (by simpa using Message.mem_paths_of_descend [i] hrest)
    simp only [messageRefs, List.mem_flatMap, List.mem_map]
    exact ⟨(program, id), by simpa [List.mem_zipIdx_iff_getElem?] using hprogram, _, hpaths, rfl⟩

/-- The copy of a message, inside the copies of the messages that are opened. -/
def copy (arena : Arena) (opened : List MessageRef) (ref : MessageRef) : Option MessageDesc :=
  match _h : arena.message? ref with
  | none => none
  | some message =>
    if ref ∈ opened then some (.named message.name.value)
    else some (message.describe fun next => arena.copy (ref :: opened) next)
termination_by unseen id arena.messageRefs opened
decreasing_by exact unseen_cons_lt id (mem_messageRefs _h) ‹_›

end Arena

/-- The descriptor of a request or a reply.  A bare name is a copy of the message it is bound to,
under the name as written. -/
def MethodMessage.describe (arena : Arena) : MethodMessage → MessageDesc
  | inline message => message.describe (arena.copy [])
  | stub name target =>
    match target.bind (arena.copy []) with
    | some desc => { desc with name := name.value }
    | none => .named name.value

def Method.describe (arena : Arena) (method : Method) : MethodDesc where
  name := method.name.value
  doc := method.doc.describe
  options := OptionDecl.describeAll method.options
  id := method.id.map (·.value)
  mode := method.mode
  request := method.request.map (·.describe arena)
  reply := method.reply.map (·.describe arena)

def Service.describe (arena : Arena) (service : Service) : ServiceDesc where
  name := service.name.value
  doc := service.doc.describe
  options := OptionDecl.describeAll service.options
  methods := service.methods.map (·.describe arena)

def Project.describe (project : Project) : ProjectDesc where
  name := project.name.value
  doc := project.doc.describe
  areas := project.areas.map fun area => (area.name.value, OptionDecl.describeAll area.options)

def Import.describe (item : Import) : ImportDesc where
  localName := match item.localName with
    | some name => name.value
    | none => ""
  file := item.file.value
  doc := item.doc.describe

namespace Program

def describe (arena : Arena) (program : Program) : FileDesc where
  file := program.file
  package := ⟨program.package, program.schema.package.doc.describe⟩
  options := OptionDecl.describeAll program.schema.options
  imports := program.schema.imports.map (·.describe)
  enums := program.schema.enums.map (·.describe)
  messages := Message.describeAll (arena.copy []) program.schema.messages
  services := program.schema.services.map (·.describe arena)
  projects := program.schema.projects.map (·.describe)

/-- The descriptor that was asked for first, or else the one of now. -/
def fileDesc (arena : Arena) (program : Program) : FileDesc :=
  program.descriptor.getD (program.describe arena)

end Program

namespace Arena

def remember (arena : Arena) (ids : List ProgramId) : Arena :=
  arena.mapIdx fun id program =>
    if id ∈ ids then { program with descriptor := some (program.fileDesc arena) } else program

/-- Visits programs and what they import, depth first, passing over files that were seen. -/
def closureFrom (arena : Arena) (seen : List String) : List ProgramId → List ProgramId
  | [] => []
  | id :: pending =>
    match _h : arena[id]? with
    | none => arena.closureFrom seen pending
    | some program =>
      if program.file ∈ seen then arena.closureFrom seen pending
      else id :: arena.closureFrom (program.file :: seen) (program.importTargets ++ pending)
termination_by pending => (unseen Program.file arena seen, pending.length)
decreasing_by
  · simp [Prod.lex_def]
  · simp [Prod.lex_def]
  · exact Prod.Lex.left _ _ (unseen_cons_lt Program.file (List.mem_of_getElem? _h) ‹_›)

def importClosure (arena : Arena) (id : ProgramId) : List ProgramId := arena.closureFrom [] [id]

def closureDescs (arena : Arena) (id : ProgramId) : Assoc String FileDesc :=
  (arena.importClosure id).filterMap fun id =>
    arena[id]?.map fun program => (program.file, program.fileDesc arena)

end Arena

end Idl

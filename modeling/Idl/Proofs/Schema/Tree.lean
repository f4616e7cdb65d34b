import Idl.Schema

/-!
# The tree of messages

A path leads to each message of a schema, however deeply it is nested.  What is said of every type
name of a message is said of the fields of all messages that paths lead to; it can be shown one
level at a time.
-/

namespace Idl

open List

variable {P : Message → Prop} {m : Message} {path : MessagePath}

/-! ## Paths -/

namespace Message

theorem descend_cons (m : Message) (i : Nat) (path : List Nat) :
    m.descend (i :: path) = m.messages[i]?.bind (·.descend path) := by
  rw [descend]
  cases m.messages[i]? <;> rfl

theorem descend_append (m : Message) (path rest : List Nat) :
    m.descend (path ++ rest) = (m.descend path).bind (·.descend rest) := by
  induction path generalizing m with
  | nil => rfl
  | cons i path ih =>
    rw [cons_append, descend_cons, descend_cons]
    cases m.messages[i]? with
    | none => rfl
    | some sub => exact ih sub

/-- What passes from the messages directly in a message to the message holds of all messages. -/
theorem induction_nested (h : ∀ m : Message, (∀ sub ∈ m.messages, P sub) → P m) (m : Message) :
    P m := by
  induction hsize : sizeOf m using Nat.strongRecOn generalizing m with
  | ind size ih =>
    obtain ⟨name, doc, fields, messages, enums, options⟩ := m
    refine h _ fun sub hsub => ih (sizeOf sub) ?_ sub rfl
    have hless : sizeOf sub < sizeOf messages := sizeOf_lt_of_mem hsub
    simp only [mk.sizeOf_spec] at hsize
    omega

/-- What holds of a message and of the messages directly in it, for as deep as one looks, is what
holds wherever a path leads. -/
theorem forall_descend_iff :
    (∀ path sub, m.descend path = some sub → P sub) ↔
      P m ∧ ∀ sub ∈ m.messages, ∀ path inner, sub.descend path = some inner → P inner := by
  constructor
  · intro h
    refine ⟨h [] m rfl, fun sub hsub path inner hinner => ?_⟩
    obtain ⟨i, hi⟩ := mem_iff_getElem?.1 hsub
    apply h (i :: path)
    rw [descend_cons, hi]
    exact hinner
  · rintro ⟨hself, hbelow⟩ path sub hsub
    cases path with
    | nil =>
      cases hsub
      exact hself
    | cons i path =>
      rw [descend_cons] at hsub
      obtain ⟨inner, hinner, hsub⟩ := Option.bind_eq_some_iff.1 hsub
      exact hbelow inner (mem_of_getElem? hinner) path sub hsub

end Message

namespace Schema

variable {schema : Schema}

theorem message?_eq_some_iff {found : Message} :
    schema.message? path = some found ↔ ∃ i m rest, path = i :: rest ∧
      schema.messages[i]? = some m ∧ m.descend rest = some found := by
  cases path with
  | nil => simp [message?]
  | cons i rest =>
    rw [message?, Option.bind_eq_some_iff]
    constructor
    · rintro ⟨m, hm, hfound⟩
      exact ⟨i, m, rest, rfl, hm, hfound⟩
    · rintro ⟨_, m, _, ⟨⟩, hm, hfound⟩
      exact ⟨m, hm, hfound⟩

theorem message?_append (h : schema.message? path = some m) (rest : List Nat) :
    schema.message? (path ++ rest) = m.descend rest := by
  obtain ⟨i, top, path, rfl, htop, hm⟩ := message?_eq_some_iff.1 h
  simp [message?, htop, Message.descend_append, hm]

theorem forall_message?_iff :
    (∀ path message, schema.message? path = some message → P message) ↔
      ∀ m ∈ schema.messages, ∀ path sub, m.descend path = some sub → P sub := by
  simp only [message?_eq_some_iff]
  constructor
  · intro h m hm path sub hsub
    obtain ⟨i, hi⟩ := mem_iff_getElem?.1 hm
    exact h (i :: path) sub ⟨i, m, path, rfl, hi, hsub⟩
  · rintro h _ message ⟨i, m, rest, rfl, hm, hmessage⟩
    exact h m (mem_of_getElem? hm) rest message hmessage

theorem forall_enum?_iff {Q : EnumDef → Prop} :
    (∀ path enum, schema.enum? path = some enum → Q enum) ↔
      (∀ enum ∈ schema.enums, Q enum) ∧
        ∀ path m, schema.message? path = some m → ∀ enum ∈ m.enums, Q enum := by
  constructor
  · intro h
    constructor
    · intro enum henum
      obtain ⟨i, hi⟩ := mem_iff_getElem?.1 henum
      exact h ⟨none, i⟩ enum hi
    · intro path m hm enum henum
      obtain ⟨i, hi⟩ := mem_iff_getElem?.1 henum
      exact h ⟨some path, i⟩ enum (Option.bind_eq_some_iff.2 ⟨m, hm, hi⟩)
  · rintro ⟨htop, hnested⟩ ⟨owner, i⟩ enum henum
    cases owner with
    | none => exact htop enum (mem_of_getElem? henum)
    | some path =>
      obtain ⟨m, hm, hi⟩ := Option.bind_eq_some_iff.1 henum
      exact hnested path m hm enum (mem_of_getElem? hi)

end Schema

/-! ## Type names -/

theorem ElemType.custom?_eq_some_iff
    {elem : ElemType} {type : TypeName} : elem.custom? = some type ↔ elem = .custom type := by
  cases elem <;> simp [custom?]

def Field.Each (P : TypeName → Prop) (field : Field) : Prop :=
  ∀ type, field.type.custom? = some type → P type

namespace Message

variable {P Q : TypeName → Prop} {m : Message}

def Each (P : TypeName → Prop) (m : Message) : Prop :=
  ∀ path sub, m.descend path = some sub → ∀ field ∈ sub.fields, field.Each P

theorem each_iff :
    m.Each P ↔ (∀ field ∈ m.fields, field.Each P) ∧ ∀ sub ∈ m.messages, sub.Each P :=
  forall_descend_iff

theorem Each.mono (h : m.Each P) (hPQ : ∀ type, P type → Q type) : m.Each Q :=
  fun path sub hsub field hfield type htype => hPQ type (h path sub hsub field hfield type htype)

mutual

/-- All type names in the message and in those nested in it. -/
def typeNames : Message → List TypeName
  | ⟨_, _, fields, messages, _, _⟩ => fields.filterMap (·.type.custom?) ++ allTypeNames messages

def allTypeNames : List Message → List TypeName
  | [] => []
  | message :: messages => message.typeNames ++ allTypeNames messages

end

theorem allTypeNames_eq_flatMap (messages : List Message) :
    allTypeNames messages = messages.flatMap (·.typeNames) := by
  induction messages with
  | nil => rfl
  | cons message messages ih => rw [allTypeNames, ih, flatMap_cons]

theorem each_iff_typeNames : m.Each P ↔ ∀ type ∈ m.typeNames, P type := by
  induction m using induction_nested with
  | h m ih =>
    obtain ⟨name, doc, fields, messages, enums, options⟩ := m
    have hfields : (∀ type ∈ fields.filterMap (·.type.custom?), P type) ↔
        ∀ field ∈ fields, field.Each P := by
      simp only [mem_filterMap, Field.Each]
      exact ⟨fun h field hfield type htype => h type ⟨field, hfield, htype⟩,
        fun h type ⟨field, hfield, htype⟩ => h field hfield type htype⟩
    have hmessages : (∀ type ∈ allTypeNames messages, P type) ↔
        ∀ sub ∈ messages, ∀ type ∈ sub.typeNames, P type := by
      simp only [allTypeNames_eq_flatMap, mem_flatMap]
      exact ⟨fun h sub hsub type htype => h type ⟨sub, hsub, htype⟩,
        fun h type ⟨sub, hsub, htype⟩ => h sub hsub type htype⟩
    rw [each_iff, typeNames, forall_mem_append, hfields, hmessages]
    exact and_congr_right fun _ => forall₂_congr ih

instance [DecidablePred P] (m : Message) : Decidable (m.Each P) :=
  decidable_of_iff' _ each_iff_typeNames

end Message

def Method.messages (method : Method) : List MethodMessage :=
  method.request.toList ++ method.reply.toList

namespace Schema

/-- The requests and replies of all methods. -/
def methodMessages (schema : Schema) : List MethodMessage :=
  schema.services.flatMap fun service => service.methods.flatMap (·.messages)

theorem mem_methodMessages_iff {schema : Schema} {message : MethodMessage} :
    message ∈ schema.methodMessages ↔ ∃ service ∈ schema.services, ∃ method ∈ service.methods,
      method.request = some message ∨ method.reply = some message := by
  simp [methodMessages, Method.messages]

end Schema

end Idl
